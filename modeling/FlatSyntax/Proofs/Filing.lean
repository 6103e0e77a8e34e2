import Mathlib
import FlatSyntax.Proofs.Needed
import FlatSyntax.Visitor.Basic

/-!
# Filing the keys of a visitor

The keys of a visitor are filed one after another, each in the table of its phase and the row of its
kind. What filing one key does to a row is told by `callbacks_file`. So after all of them each row has
the positions of the keys that name its kind and its phase, in order: none is lost, none is moved and
none is filed elsewhere.

Reading the keys while they are filed is reading them all and filing them then.
-/

namespace FlatSyntax

/-! ## Rows -/

namespace Table

@[simp] theorem row_empty (kind : NodeKind) : empty.row kind = #[] := by
  unfold empty row
  rw [Vector.get_eq_getElem, Vector.getElem_replicate]

/-- Rows have places of their own, so a push shows in one of them. -/
theorem row_push (table : Table) (kind other : NodeKind) (position : Nat) :
    (table.push kind position).row other =
      if kind = other then (table.row other).push position else table.row other := by
  unfold push
  rw [row, Vector.get_eq_getElem, Vector.getElem_set]
  by_cases h : kind = other
  · subst h
    rw [if_pos rfl, if_pos rfl]
  · rw [if_neg h, if_neg fun hindex => h (NodeKind.index_injective hindex), row,
      Vector.get_eq_getElem]

end Table

/-! ## Filing -/

namespace Filing

theorem callbacks_start (phase : Phase) (kind : NodeKind) : callbacks {} phase kind = [] := by
  unfold callbacks
  cases phase <;> exact congrArg Array.toList (Table.row_empty kind)

/-- A key is filed once, at the end of the row that it names. -/
theorem callbacks_file (filing : Filing) (key : VisitorKey) (position : Nat) (phase : Phase)
    (kind : NodeKind) :
    (filing.file key position).callbacks phase kind =
      filing.callbacks phase kind ++ if key = ⟨kind, phase⟩ then [position] else [] := by
  obtain ⟨named, named'⟩ := key
  unfold callbacks
  cases phase <;> cases named' <;> simp only [file, table, Table.row_push, VisitorKey.mk.injEq] <;>
    by_cases h : named = kind <;> simp [h]

@[simp] theorem registered_file (filing : Filing) (key : VisitorKey) (position : Nat) :
    (filing.file key position).registered = filing.registered.insert key.kind := by
  unfold file
  cases key.phase <;> rfl

/-- Files keys one after another, from a position on. -/
def fileAll (filing : Filing) (keys : List VisitorKey) (start : Nat) : Filing :=
  (keys.zipIdx start).foldl (fun filing entry => filing.file entry.1 entry.2) filing

theorem fileAll_cons (filing : Filing) (key : VisitorKey) (rest : List VisitorKey) (start : Nat) :
    filing.fileAll (key :: rest) start = (filing.file key start).fileAll rest (start + 1) := rfl

/-- After keys have been filed, a row has what it had and the positions of those that name it. -/
theorem callbacks_fileAll (filing : Filing) (keys : List VisitorKey) (start : Nat) (phase : Phase)
    (kind : NodeKind) :
    (filing.fileAll keys start).callbacks phase kind =
      filing.callbacks phase kind ++
        ((keys.zipIdx start).filter fun entry => entry.1 = ⟨kind, phase⟩).map Prod.snd := by
  induction keys generalizing filing start with
  | nil => exact (List.append_nil _).symm
  | cons key rest ih =>
    rw [fileAll_cons, ih, callbacks_file, List.append_assoc, List.zipIdx_cons, List.filter_cons]
    by_cases h : key = ⟨kind, phase⟩ <;> simp [h]

theorem registered_fileAll (filing : Filing) (keys : List VisitorKey) (start : Nat) :
    (filing.fileAll keys start).registered =
      (keys.map VisitorKey.kind).foldl KindSet.insert filing.registered := by
  induction keys generalizing filing start with
  | nil => rfl
  | cons key rest ih => rw [fileAll_cons, ih, registered_file, List.map_cons, List.foldl_cons]

/-- Reading keys while they are filed comes to reading all of them first. -/
theorem read_all (filing : Filing) (keys : List String) (start : Nat) :
    (keys.zipIdx start).foldlM (fun filing entry => filing.read entry.1 entry.2) filing =
      (keys.mapM VisitorKey.parse).map fun parsed => filing.fileAll parsed start := by
  induction keys generalizing filing start with
  | nil => rfl
  | cons key rest ih =>
    rw [List.zipIdx_cons, List.foldlM_cons, List.mapM_cons, read]
    cases VisitorKey.parse key with
    | error fault => rfl
    | ok first =>
      change (rest.zipIdx (start + 1)).foldlM _ (filing.file first start) = _
      rw [ih]
      cases rest.mapM VisitorKey.parse <;> rfl

end Filing

/-! ## Plans -/

namespace Plan

/-- The callbacks of a plan are the positions of its keys that name the kind and the phase. -/
theorem callbacks_eq (keys : List VisitorKey) (phase : Phase) (kind : NodeKind) :
    (ofKeys keys).callbacks phase kind =
      (keys.zipIdx.filter fun entry => entry.1 = ⟨kind, phase⟩).map Prod.snd := by
  have hfiled := Filing.callbacks_fileAll {} keys 0 phase kind
  rwa [Filing.callbacks_start, List.nil_append] at hfiled

theorem mem_callbacks {keys : List VisitorKey} {phase : Phase} {kind : NodeKind} {i : Nat} :
    i ∈ (ofKeys keys).callbacks phase kind ↔ keys[i]? = some ⟨kind, phase⟩ := by
  rw [callbacks_eq]
  simp [List.mem_zipIdx_iff_getElem?]

/-- The positions of the keys for a phase and a kind, in order. -/
theorem callbacks_ordered (keys : List VisitorKey) (phase : Phase) (kind : NodeKind) :
    ((ofKeys keys).callbacks phase kind).Pairwise (· < ·) := by
  have hsub : ((ofKeys keys).callbacks phase kind).Sublist (keys.zipIdx.map Prod.snd) := by
    rw [callbacks_eq]
    exact List.filter_sublist.map Prod.snd
  rw [List.zipIdx_map_snd] at hsub
  exact (List.pairwise_lt_range').sublist hsub

/-- There are as many callbacks for a key as times it was given. -/
theorem length_callbacks (keys : List VisitorKey) (key : VisitorKey) :
    ((ofKeys keys).callbacks key.phase key.kind).length = keys.count key := by
  rw [callbacks_eq, List.length_map, ← List.countP_eq_length_filter, List.count]
  conv_rhs => rw [← List.zipIdx_map_fst 0 keys, List.countP_map]
  refine List.countP_congr fun entry _ => ?_
  simp

theorem registered_ofKeys {keys : List VisitorKey} {kind : NodeKind} :
    (ofKeys keys).registered.contains kind = true ↔ ∃ key ∈ keys, key.kind = kind := by
  have hfiled : (ofKeys keys).registered = KindSet.ofList (keys.map VisitorKey.kind) :=
    Filing.registered_fileAll {} keys 0
  simp only [hfiled, KindSet.contains_ofList, decide_eq_true_iff, List.mem_map]

theorem compile_eq_map (keys : List String) :
    compile keys = (keys.mapM VisitorKey.parse).map ofKeys := by
  unfold compile
  rw [Filing.read_all]
  cases keys.mapM VisitorKey.parse <;> rfl

end Plan

namespace Visitor

theorem compile_of_parsed {keys : List String} {parsed : List VisitorKey}
    (h : keys.mapM VisitorKey.parse = .ok parsed) :
    compile keys = .ok { plan := .ofKeys parsed } := by
  unfold compile
  rw [Plan.compile_eq_map, h]
  rfl

theorem parsed_of_compile {keys : List String} {v : Visitor} (h : compile keys = .ok v) :
    ∃ parsed, keys.mapM VisitorKey.parse = .ok parsed ∧ v = { plan := .ofKeys parsed } := by
  cases hparsed : keys.mapM VisitorKey.parse with
  | ok parsed => exact ⟨parsed, rfl, Except.ok.inj (h.symm.trans (compile_of_parsed hparsed))⟩
  | error fault =>
    unfold compile at h
    rw [Plan.compile_eq_map, hparsed] at h
    cases h

end Visitor

end FlatSyntax
