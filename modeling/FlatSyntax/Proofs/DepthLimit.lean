import Mathlib
import FlatSyntax.Proofs.Entries
import FlatSyntax.Proofs.SessionCutoff

/-!
# The depth limit

One document read under two limits. The limit is looked at in one place of a projection and one place
of a walk, and running out of levels there is a fault of its own; no read depends on it. So under the
lower limit everything is answered as under the higher one, or with that fault. A projection that ends
well is as deep as the limit lets it be: each level of views is one level of objects, and below the
last level there may be one more, of a source range or a name slot, which are objects but not views.
-/

namespace FlatSyntax

/-! ## How deep objects are nested -/

namespace Value

mutual

/-- How many objects are nested inside one another. Arrays do not count. -/
def nesting : Value → Nat
  | .array items => nestingOfItems items
  | .object entries => nestingOfEntries entries + 1
  | .null | .boolean _ | .number _ | .string _ => 0

/-- The deepest nesting of a list of values. -/
def nestingOfItems : List Value → Nat
  | [] => 0
  | item :: items => max item.nesting (nestingOfItems items)

/-- The deepest nesting of a list of entries. -/
def nestingOfEntries : List (String × Value) → Nat
  | [] => 0
  | (_, item) :: entries => max item.nesting (nestingOfEntries entries)

end

theorem nestingOfItems_le {items : List Value} {n : Nat} (h : ∀ v ∈ items, v.nesting ≤ n) :
    nestingOfItems items ≤ n := by
  induction items with
  | nil =>
    rw [nestingOfItems]
    exact Nat.zero_le n
  | cons item rest ih =>
    rw [nestingOfItems]
    have hitem := h item List.mem_cons_self
    have hrest := ih fun v hv => h v (List.mem_cons_of_mem item hv)
    omega

theorem nestingOfEntries_le_iff {entries : List (String × Value)} {n : Nat} :
    nestingOfEntries entries ≤ n ↔ ∀ entry ∈ entries, entry.2.nesting ≤ n := by
  induction entries with
  | nil => simp [nestingOfEntries]
  | cons entry rest ih =>
    obtain ⟨key, item⟩ := entry
    rw [nestingOfEntries, List.forall_mem_cons, ← ih]
    exact Nat.max_le

theorem nestingOfEntries_insert {key : String} {v : Value} {entries : List (String × Value)}
    {n : Nat} (hv : v.nesting ≤ n) (h : nestingOfEntries entries ≤ n) :
    nestingOfEntries (Entries.insert key v entries) ≤ n := by
  rw [nestingOfEntries_le_iff] at h ⊢
  intro entry hentry
  rcases Entries.mem_insert hentry with rfl | hentry
  · exact hv
  · exact h entry hentry

theorem nestingOfEntries_foldl {pairs entries : List (String × Value)} {n : Nat}
    (hpairs : ∀ pair ∈ pairs, pair.2.nesting ≤ n) (h : nestingOfEntries entries ≤ n) :
    nestingOfEntries (pairs.foldl (fun entries (key, v) => Entries.insert key v entries)
      entries) ≤ n := by
  induction pairs generalizing entries with
  | nil => exact h
  | cons pair rest ih =>
    have hpair := hpairs pair List.mem_cons_self
    refine ih (fun other hother => hpairs other (List.mem_cons_of_mem pair hother)) ?_
    exact nestingOfEntries_insert hpair h

/-- An object made of values that are not objects. -/
theorem nesting_ofList {pairs : List (String × Value)}
    (h : ∀ pair ∈ pairs, pair.2.nesting = 0) :
    (Value.object (Entries.ofList pairs)).nesting ≤ 1 := by
  have hempty : nestingOfEntries [] ≤ 0 := by rw [nestingOfEntries]
  have hentries : nestingOfEntries (Entries.ofList pairs) ≤ 0 :=
    nestingOfEntries_foldl (fun pair hpair => (h pair hpair).le) hempty
  rw [nesting]
  omega

end Value

/-! ## Projections are as deep as the limit -/

namespace Projection

variable {doc : Document} {view : Item Unit → Except Fault Value} {n : Nat} {v : Value}

theorem nesting_scalar (d : Datum (Item Unit)) : d.scalar.nesting ≤ 1 := by
  cases d with
  | span s => exact Value.nesting_ofList (by simp [Value.ofNat, Value.nesting])
  | _ => simp [Datum.scalar, Value.ofNat, Value.nesting]

theorem nesting_slotValue (c : SlotCase) (name : Option Text) (span : Option Span) :
    (slotValue c name span).nesting ≤ 1 := by
  refine Value.nesting_ofList ?_
  cases name <;> cases span <;> simp [Value.ofNat, Value.nesting]

theorem nesting_single (hview : ∀ item v, view item = .ok v → v.nesting ≤ n + 1)
    {d : Datum (Item Unit)} (h : single doc.access view d = .ok v) : v.nesting ≤ n + 1 := by
  -- only the source range and the name slot are objects here, with nothing nested in them
  have hscalar : ∀ d : Datum (Item Unit), d.scalar.nesting ≤ n + 1 :=
    fun d => (nesting_scalar d).trans (by omega)
  cases d with
  | object item => exact hview item v h
  | variant k variant item => exact hview item v h
  | slot k c content =>
    obtain ⟨parts, _, hslot⟩ := ok_of_bind h
    cases hslot
    exact (nesting_slotValue c _ _).trans (by omega)
  | _ =>
    cases h
    exact hscalar _

theorem nesting_datum (hview : ∀ item v, view item = .ok v → v.nesting ≤ n + 1) {layout : Layout}
    {d : Datum (Item Unit)} (h : datum doc.access view layout d = .ok v) : v.nesting ≤ n + 1 := by
  induction layout generalizing d v with
  | boxed layout ih => exact ih h
  | optional layout ih =>
    rw [datum_optional] at h
    exact ih h
  | sequence element ih =>
    cases d with
    | object item =>
      obtain ⟨values, hvalues, harray⟩ := ok_of_bind h
      cases harray
      obtain ⟨hall, rfl⟩ := mapM_ok hvalues
      rw [Value.nesting]
      refine Value.nestingOfItems_le fun value hvalue => ?_
      obtain ⟨index, hindex, rfl⟩ := List.mem_map.mp hvalue
      obtain ⟨d, _, hd⟩ := ok_of_bind (hall index hindex)
      exact ih hd
    | _ => exact nesting_single hview h
  | _ => exact nesting_single hview h

theorem nesting_fields (hview : ∀ item v, view item = .ok v → v.nesting ≤ n + 1)
    {kind : ViewKind} {item : Item Unit} {entries : List (String × Value)}
    (h : fields doc.access view kind item = .ok entries) :
    Value.nestingOfEntries entries ≤ n + 1 := by
  obtain ⟨hall, rfl⟩ := foldlM_insert_ok h
  refine Value.nestingOfEntries_foldl (fun pair hpair => ?_) ?_
  · obtain ⟨field, hfield, rfl⟩ := List.mem_map.mp hpair
    obtain ⟨d, _, hd⟩ := ok_of_bind (hall field hfield)
    exact nesting_datum hview hd
  · rw [Value.nestingOfEntries]
    exact Nat.zero_le _

theorem nesting_tagged {kind : NodeKind} {span : Span} {entries : List (String × Value)}
    (h : Value.nestingOfEntries entries ≤ n) :
    Value.nestingOfEntries (tagged kind span entries) ≤ n := by
  have hnumber : ∀ k, (Value.ofNat k).nesting ≤ n := by simp [Value.ofNat, Value.nesting]
  have htyped : Value.nestingOfEntries (if (Entries.get? entries "type").isSome then entries
      else Entries.insert "type" (.string kind.name) entries) ≤ n := by
    split
    · exact h
    · exact Value.nestingOfEntries_insert (by simp [Value.nesting]) h
  exact Value.nestingOfEntries_insert (hnumber _) (Value.nestingOfEntries_insert (hnumber _) htyped)

theorem nesting_view {depth : Nat} {item : Item Unit}
    (h : Projection.view doc doc.access depth item = .ok v) : v.nesting ≤ depth + 1 := by
  induction depth generalizing item v with
  | zero => cases h
  | succ depth ih =>
    have hbelow : ∀ item v, Projection.view doc doc.access depth item = .ok v →
        v.nesting ≤ depth + 1 := fun item v hv => ih hv
    obtain ⟨place, extent, mark⟩ := item
    cases place with
    | sequence element pos =>
      cases h
      simp [Value.nesting]
    | view kind pos =>
      cases kind with
      | record kind =>
        obtain ⟨entries, hentries, hobject⟩ := ok_of_bind h
        cases hobject
        have hnesting := nesting_fields hbelow hentries
        rw [Value.nesting]
        omega
      | node kind =>
        obtain ⟨entries, hentries, htagged⟩ := ok_of_bind h
        obtain ⟨span, _, hobject⟩ := ok_of_bind htagged
        cases hobject
        have hnesting : Value.nestingOfEntries (tagged kind span entries) ≤ depth + 1 :=
          nesting_tagged (nesting_fields hbelow hentries)
        rw [Value.nesting]
        omega

end Projection

namespace Session

variable {s : Session}

theorem nesting_project (hs : s.Sound) (hdepth : s.depth = 0) {d : Datum Link}
    (hd : s.heap.Holds d) {layout : Layout} {v : Value}
    (h : (s.exec (project layout d)).1 = .ok v) : v.nesting ≤ s.document.options.maxDepth + 1 := by
  have hout := (project_reading hs hdepth layout hd).outcome.eq_of_eq
  rw [hout] at h
  exact Projection.nesting_datum (fun item v => Projection.nesting_view) h

end Session

/-! ## Two limits -/

namespace Document

/-- The document read with another limit. -/
def withLimit (doc : Document) (limit : Nat) : Document :=
  { doc with options := { doc.options with maxDepth := limit } }

/-- Single reads do not look at the limit. -/
theorem withLimit_cutFrom (cut : Fault → Prop) (doc : Document) (low high : Nat) :
    (doc.withLimit low).CutFrom cut (doc.withLimit high) where
  addressing := .inl rfl
  check _ _ := .refl _
  bytes _ _ := .refl _
  windows _ _ := rfl
  sources _ := rfl

/-- A lower limit only turns answers into the fault of nesting past it, and the values that are
projected under it nest at most one object more. -/
theorem withLimit_answers (doc : Document) {low high : Nat} (hle : low ≤ high) :
    (doc.withLimit low).AnswersCutFrom (· = .tooDeep low) (doc.withLimit high) ∧
      ∀ {s : Session}, Session.Reachable (doc.withLimit low) s → ∀ {d : Datum Link},
        s.heap.Holds d → ∀ {layout : Layout} {v : Value},
          (s.exec (Session.project layout d)).1 = .ok v → v.nesting ≤ low + 1 := by
  constructor
  · exact (doc.withLimit_cutFrom _ low high).answers (.inr ⟨hle, rfl⟩)
  · intro s hs d hd layout v hv
    obtain ⟨hdoc, hsound, hdepth⟩ := hs.sound
    have hnesting := Session.nesting_project hsound hdepth hd hv
    rwa [hdoc] at hnesting

/-- Asks a fresh session over zero bytes for the plain value of a statement without fields. -/
def askUnder (limit : Nat) : Except Fault Answer :=
  ((Session.start ((zeros 64).withLimit limit) 1).exec (do
    Session.ask [] (.plain (.node .debuggerStatement))
      (← Session.viewAt 1 (.node .debuggerStatement) 0))).1

/-- No level at all, beside one level. -/
theorem withLimit_answers_statement :
    askUnder 0 = .error (.tooDeep 0) ∧ (∃ v, askUnder 1 = .ok (.plain v)) ∧
      Cutoff (· = .tooDeep 0) (askUnder 0) (askUnder 1) := by
  refine ⟨rfl, ⟨_, rfl⟩, ?_⟩
  have hanswers := (withLimit_answers (zeros 64) (Nat.zero_le 1)).1
  exact (hanswers.sessions (.bare 1 .refl) (.bare 1 .refl)).viewAt Iff.rfl _ _ _ _

end Document

end FlatSyntax
