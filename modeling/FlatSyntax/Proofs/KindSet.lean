import Mathlib
import FlatSyntax.Proofs.Needed

/-!
# Sets of kinds are finite sets

A set that kinds were added to has just these kinds for members: the packing into two words shows in
no answer. Membership is a matter of bits, and in a set that was built by adding every bit stands for
a kind, so that counting bits is counting members and comparing words is comparing members.
-/

namespace FlatSyntax.KindSet

variable {s t : KindSet} {kind : NodeKind}

/-! ## Counting bits -/

theorem size_eq_countP_bit (s : KindSet) : s.size = (List.range 128).countP s.bit := by
  have hsplit : List.range 128 = List.range 64 ++ (List.range 64).map (64 + ·) :=
    (List.range_add : List.range (64 + 64) = _)
  have hlow : ones s.low = (List.range 64).countP s.bit := by
    refine List.countP_congr fun i hi => ?_
    simp [bit, List.mem_range.mp hi]
  have hhigh : ones s.high = (List.range 64).countP (s.bit ∘ (64 + ·)) :=
    List.countP_congr fun i _ => by simp [bit]
  rw [size, hlow, hhigh, hsplit, List.countP_append, List.countP_map]

/-- No bit past the kinds is set, so the bits that are set are the members. -/
theorem Proper.size_eq_length (h : s.Proper) : s.size = s.toList.length := by
  have hsplit : List.range 128 = List.range 109 ++ (List.range 19).map (109 + ·) :=
    (List.range_add : List.range (109 + 19) = _)
  have hstray : ((List.range 19).map (109 + ·)).countP s.bit = 0 := by
    rw [List.countP_eq_zero]
    intro i hi hbit
    obtain ⟨j, _, rfl⟩ := List.mem_map.mp hi
    obtain ⟨kind, hkind⟩ := h _ hbit
    have hmem : kind.index ∈ NodeKind.all.map NodeKind.index := List.mem_map_of_mem kind.mem_all
    rw [NodeKind.map_index_all, List.mem_range] at hmem
    omega
  calc s.size
      = (List.range 109).countP s.bit := by
        rw [size_eq_countP_bit, hsplit, List.countP_append, hstray, Nat.add_zero]
    _ = NodeKind.all.countP s.contains := by
        rw [← NodeKind.map_index_all, List.countP_map]
        rfl
    _ = s.toList.length := List.countP_eq_length_filter

/-! ## Listing and comparing members -/

theorem mem_toList : kind ∈ s.toList ↔ s.contains kind = true := by
  simp [toList, kind.mem_all]

/-- Members are listed in declaration order. -/
theorem toList_ordered (s : KindSet) : s.toList.Pairwise fun a b => a.index < b.index := by
  have hall : NodeKind.all.Pairwise fun a b => a.index < b.index := by
    rw [← List.pairwise_map, NodeKind.map_index_all]
    exact List.pairwise_lt_range
  exact hall.filter _

theorem toList_nodup (s : KindSet) : s.toList.Nodup :=
  s.toList_ordered.imp fun h heq => by simp [heq] at h

theorem isEmpty_iff : s.isEmpty = true ↔ s = empty := by
  obtain ⟨low, high⟩ := s
  simp [isEmpty, empty]

/-- Two sets with the same members are equal, if the bits of both stand for kinds. -/
theorem Proper.ext (hs : s.Proper) (ht : t.Proper)
    (h : ∀ kind, s.contains kind = true ↔ t.contains kind = true) : s = t := by
  refine ext_bit fun i => Bool.eq_iff_iff.mpr ⟨fun hi => ?_, fun hi => ?_⟩
  · obtain ⟨kind, rfl⟩ := hs i hi
    exact (h kind).mp hi
  · obtain ⟨kind, rfl⟩ := ht i hi
    exact (h kind).mpr hi

/-! ## Adding kinds one after the other -/

/-- Adds kinds one after the other: which of them were new, and the set after all. -/
def addAll (s : KindSet) : List NodeKind → List Bool × KindSet
  | [] => ([], s)
  | kind :: rest =>
    let (fresh, t) := s.add kind
    let (more, u) := t.addAll rest
    (fresh :: more, u)

theorem addAll_snd (s : KindSet) (kinds : List NodeKind) :
    (s.addAll kinds).2 = kinds.foldl insert s := by
  induction kinds generalizing s with
  | nil => rfl
  | cons kind rest ih => exact ih (s.insert kind)

theorem addAll_empty_snd (kinds : List NodeKind) : (empty.addAll kinds).2 = ofList kinds :=
  addAll_snd empty kinds

theorem getElem?_addAll_fst (s : KindSet) (kinds : List NodeKind) (i : Nat) :
    (s.addAll kinds).1[i]? =
      kinds[i]?.map fun kind => !s.contains kind && decide (kind ∉ kinds.take i) := by
  induction kinds generalizing s i with
  | nil => simp [addAll]
  | cons first rest ih =>
    cases i with
    | zero => simp [addAll, add]
    | succ i =>
      have hstep : (s.addAll (first :: rest)).1[i + 1]? = ((s.insert first).addAll rest).1[i]? := rfl
      rw [hstep, ih]
      refine Option.map_congr fun kind _ => ?_
      by_cases hfirst : first = kind
      · simp [hfirst]
      · simp [hfirst, Ne.symm hfirst]

/-- What adding kinds to no members tells, and what the set is afterwards. -/
structure Faithful (kinds : List NodeKind) (answers : List Bool) (s : KindSet) : Prop where
  /-- Each time it is told whether the kind is none of those before it. -/
  answers : ∀ i : Nat, answers[i]? = kinds[i]?.map fun kind => decide (kind ∉ kinds.take i)
  /-- The members are the kinds that were added. -/
  contains : ∀ kind, s.contains kind = true ↔ kind ∈ kinds
  /-- The size is the number of different kinds. -/
  size : s.size = kinds.toFinset.card
  /-- A set is empty iff its size is zero. -/
  isEmpty : s.isEmpty = true ↔ s.size = 0
  /-- The members that are listed are the kinds that were added, … -/
  listed : ∀ kind, kind ∈ s.toList ↔ kind ∈ kinds
  /-- … each once, … -/
  once : s.toList.Nodup
  /-- … in declaration order. -/
  ordered : s.toList.Pairwise fun a b => a.index < b.index
  /-- It intersects another set that was built so iff some kind is in both. -/
  intersects : ∀ others : List NodeKind, s.intersects (empty.addAll others).2 = true ↔
    ∃ kind, s.contains kind = true ∧ (empty.addAll others).2.contains kind = true
  /-- It is another set that was built so iff both have the same members. -/
  eq : ∀ others : List NodeKind, s = (empty.addAll others).2 ↔
    ∀ kind, s.contains kind = true ↔ (empty.addAll others).2.contains kind = true

theorem addAll_faithful (kinds : List NodeKind) :
    Faithful kinds (empty.addAll kinds).1 (empty.addAll kinds).2 := by
  have hproper : ∀ kinds : List NodeKind, (empty.addAll kinds).2.Proper := fun kinds =>
    addAll_empty_snd kinds ▸ .ofList kinds
  have hcontains : ∀ kind, (empty.addAll kinds).2.contains kind = true ↔ kind ∈ kinds := by
    simp [addAll_empty_snd]
  have hlisted : ∀ kind, kind ∈ (empty.addAll kinds).2.toList ↔ kind ∈ kinds := fun kind =>
    mem_toList.trans (hcontains kind)
  have hsize : (empty.addAll kinds).2.size = kinds.toFinset.card := by
    rw [(hproper kinds).size_eq_length, ← List.toFinset_card_of_nodup (toList_nodup _)]
    congr 1
    ext kind
    simp [hlisted]
  refine {
    answers := fun i => by simp [getElem?_addAll_fst]
    contains := hcontains
    size := hsize
    isEmpty := ?_
    listed := hlisted
    once := toList_nodup _
    ordered := toList_ordered _
    intersects := fun others => intersects_iff (hproper kinds)
    eq := fun others => ⟨fun h => h ▸ fun _ => .rfl, (hproper kinds).ext (hproper others)⟩ }
  rw [isEmpty_iff, hsize, Finset.card_eq_zero, List.toFinset_eq_empty_iff]
  constructor
  · intro hempty
    refine List.eq_nil_iff_forall_not_mem.mpr fun kind hkind => ?_
    simpa [hempty] using (hcontains kind).mpr hkind
  · rintro rfl
    rfl

end FlatSyntax.KindSet
