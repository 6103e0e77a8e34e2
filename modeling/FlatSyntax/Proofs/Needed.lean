import Mathlib
import FlatSyntax.Schema.Reach

/-!
# Sets of kinds, and the kinds worth descending into

The search for needed kinds ends with a set that contains the registered kinds and every kind from
which it can be reached. That is what makes it safe to skip a value that reaches none of it.
-/

namespace FlatSyntax

namespace NodeKind

theorem mem_all (kind : NodeKind) : kind ∈ all := by cases kind <;> decide

theorem map_index_all : all.map index = List.range 109 := by decide +kernel

theorem nodup_all : all.Nodup := by
  refine List.Nodup.of_map index ?_
  rw [map_index_all]
  exact List.nodup_range

theorem index_injective {a b : NodeKind} (h : a.index = b.index) : a = b := by
  have hab : ofNat a.ctorIdx = ofNat b.ctorIdx := congrArg ofNat h
  rwa [ofNat_ctorIdx, ofNat_ctorIdx] at hab

theorem index_lt (kind : NodeKind) : kind.index < 128 := by
  have hmem : kind.index ∈ all.map index := List.mem_map_of_mem kind.mem_all
  rw [map_index_all, List.mem_range] at hmem
  omega

end NodeKind

namespace KindSet

variable {s t : KindSet} {kind : NodeKind}

/-- The bit at a position, counted through both words. -/
def bit (s : KindSet) (i : Nat) : Bool :=
  if i < 64 then s.low.getLsbD i else s.high.getLsbD (i - 64)

theorem contains_eq_bit (s : KindSet) (kind : NodeKind) : s.contains kind = s.bit kind.index := rfl

theorem ext_bit (h : ∀ i, s.bit i = t.bit i) : s = t := by
  obtain ⟨low, high⟩ := s
  obtain ⟨low', high'⟩ := t
  have hlow : low = low' := by
    refine BitVec.eq_of_getLsbD_eq fun i hi => ?_
    simpa [bit, hi] using h i
  have hhigh : high = high' := by
    refine BitVec.eq_of_getLsbD_eq fun i _ => ?_
    simpa [bit] using h (i + 64)
  rw [hlow, hhigh]

theorem bit_empty (i : Nat) : empty.bit i = false := by simp [bit, empty]

theorem bit_union (s t : KindSet) (i : Nat) : (s.union t).bit i = (s.bit i || t.bit i) := by
  unfold bit union
  split <;> simp

theorem bit_insert (s : KindSet) (kind : NodeKind) (i : Nat) :
    (s.insert kind).bit i = (s.bit i || decide (kind.index = i)) := by
  have hlt := kind.index_lt
  unfold bit insert
  by_cases hk : kind.index < 64 <;> by_cases hi : i < 64
  · simp [hk, hi, eq_comm]
  · have hne : kind.index ≠ i := by omega
    simp [hk, hi, hne]
  · have hne : kind.index ≠ i := by omega
    simp [hk, hi, hne]
  · have hiff : (kind.index - 64 = i - 64) ↔ kind.index = i := by omega
    have hsmall : kind.index - 64 < 64 := by omega
    simp [hk, hi, hiff, hsmall]

theorem intersects_iff_bit : s.intersects t = true ↔ ∃ i, s.bit i = true ∧ t.bit i = true := by
  have hword : ∀ x y : BitVec 64, x &&& y ≠ 0#64 ↔
      ∃ i, x.getLsbD i = true ∧ y.getLsbD i = true := by
    intro x y
    constructor
    · intro hne
      by_contra hnone
      refine hne (BitVec.eq_of_getLsbD_eq fun i _ => ?_)
      rw [BitVec.getLsbD_and, BitVec.getLsbD_zero, Bool.and_eq_false_iff]
      by_contra hboth
      rw [not_or, Bool.not_eq_false, Bool.not_eq_false] at hboth
      exact hnone ⟨i, hboth⟩
    · rintro ⟨i, hx, hy⟩ hzero
      have hbit := congrArg (·.getLsbD i) hzero
      simp [hx, hy] at hbit
  unfold intersects
  rw [Bool.or_eq_true, bne_iff_ne, bne_iff_ne, hword, hword]
  constructor
  · rintro (⟨i, hs, ht⟩ | ⟨i, hs, ht⟩)
    · have hi := BitVec.lt_of_getLsbD hs
      exact ⟨i, by simp [bit, hi, hs], by simp [bit, hi, ht]⟩
    · exact ⟨i + 64, by simp [bit, hs], by simp [bit, ht]⟩
  · rintro ⟨i, hs, ht⟩
    unfold bit at hs ht
    split at hs
    · rename_i hi
      rw [if_pos hi] at ht
      exact .inl ⟨i, hs, ht⟩
    · rename_i hi
      rw [if_neg hi] at ht
      exact .inr ⟨i - 64, hs, ht⟩

/-! ## Membership -/

@[simp] theorem contains_empty (kind : NodeKind) : empty.contains kind = false := bit_empty _

@[simp] theorem contains_union (s t : KindSet) (kind : NodeKind) :
    (s.union t).contains kind = (s.contains kind || t.contains kind) := bit_union ..

@[simp] theorem contains_insert (s : KindSet) (a b : NodeKind) :
    (s.insert a).contains b = (s.contains b || decide (a = b)) := by
  rw [contains_eq_bit, bit_insert, contains_eq_bit]
  have hiff : a.index = b.index ↔ a = b := ⟨NodeKind.index_injective, congrArg _⟩
  simp only [hiff]

/-- Adding a member changes nothing. -/
theorem insert_of_contains (h : s.contains kind = true) : s.insert kind = s := by
  refine ext_bit fun i => ?_
  rw [bit_insert]
  by_cases hi : kind.index = i
  · subst hi
    rw [contains_eq_bit] at h
    simp [h]
  · simp [hi]

theorem contains_foldl_insert (kinds : List NodeKind) (s : KindSet) (kind : NodeKind) :
    (kinds.foldl insert s).contains kind = (s.contains kind || decide (kind ∈ kinds)) := by
  induction kinds generalizing s with
  | nil => simp
  | cons a rest ih =>
    rw [List.foldl_cons, ih, contains_insert, Bool.or_assoc]
    congr 1
    by_cases ha : a = kind
    · simp [ha]
    · simp [ha, Ne.symm ha]

@[simp] theorem contains_ofList (kinds : List NodeKind) (kind : NodeKind) :
    (ofList kinds).contains kind = decide (kind ∈ kinds) := by
  simp [ofList, contains_foldl_insert]

/-- Every bit stands for a kind. -/
def Proper (s : KindSet) : Prop := ∀ i, s.bit i = true → ∃ kind : NodeKind, kind.index = i

theorem Proper.empty : empty.Proper := fun i h => absurd h (by simp [bit_empty])

theorem Proper.insert (h : s.Proper) (kind : NodeKind) : (s.insert kind).Proper := by
  intro i hi
  rw [bit_insert, Bool.or_eq_true, decide_eq_true_iff] at hi
  rcases hi with hi | hi
  · exact h i hi
  · exact ⟨kind, hi⟩

theorem Proper.union (hs : s.Proper) (ht : t.Proper) : (s.union t).Proper := by
  intro i hi
  rw [bit_union, Bool.or_eq_true] at hi
  rcases hi with hi | hi
  · exact hs i hi
  · exact ht i hi

theorem Proper.ofList (kinds : List NodeKind) : (ofList kinds).Proper := by
  have hfold : ∀ s : KindSet, s.Proper → (kinds.foldl KindSet.insert s).Proper := by
    induction kinds with
    | nil => exact fun s hs => hs
    | cons a rest ih => exact fun s hs => ih (s.insert a) (hs.insert a)
  exact hfold KindSet.empty .empty

/-- Two sets share a kind iff they intersect, if the bits of one stand for kinds. -/
theorem intersects_iff (hs : s.Proper) :
    s.intersects t = true ↔ ∃ kind, s.contains kind = true ∧ t.contains kind = true := by
  rw [intersects_iff_bit]
  constructor
  · rintro ⟨i, hi, hi'⟩
    obtain ⟨kind, rfl⟩ := hs i hi
    exact ⟨kind, hi, hi'⟩
  · rintro ⟨kind, hi, hi'⟩
    exact ⟨kind.index, hi, hi'⟩

end KindSet

/-! ## Reach -/

open KindSet in
theorem Layout.reachVia_proper {record : RecordKind → KindSet} (hr : ∀ kind, (record kind).Proper)
    (layout : Layout) : (layout.reachVia record).Proper := by
  induction layout with
  | view kind =>
    cases kind with
    | node kind => exact Proper.empty.insert kind
    | record kind => exact hr kind
  | union kind => exact .ofList _
  | boxed target ih => exact ih
  | sequence element ih => exact ih
  | optional value ih => exact ih
  | _ => exact .empty

/-- What the children of a view reach, field by field. -/
theorem ViewKind.reachVia_eq (record : RecordKind → KindSet) (kind : ViewKind) :
    (∀ f ∈ kind.children, ∀ k, (f.layout.reachVia record).contains k = true →
      (kind.reachVia record).contains k = true) ∧
    ((∀ r, (record r).Proper) → (kind.reachVia record).Proper) := by
  unfold ViewKind.reachVia
  generalize kind.children = fields
  have hgrow : ∀ (fields : List Field) (s : KindSet) (k : NodeKind), s.contains k = true →
      (fields.foldl (fun kinds f => kinds.union (f.layout.reachVia record)) s).contains k =
        true := by
    intro fields
    induction fields with
    | nil => exact fun s k h => h
    | cons f rest ih =>
      intro s k h
      exact ih _ k (by simp [h])
  constructor
  · generalize (∅ : KindSet) = s
    induction fields generalizing s with
    | nil => simp
    | cons g rest ih =>
      intro f hf k hk
      rcases List.mem_cons.mp hf with rfl | hf
      · exact hgrow rest _ k (by simp [hk])
      · exact ih _ f hf k hk
  · intro hr
    have hfold : ∀ s : KindSet, s.Proper →
        (fields.foldl (fun kinds f => kinds.union (f.layout.reachVia record)) s).Proper := by
      induction fields with
      | nil => exact fun s hs => hs
      | cons f rest ih => exact fun s hs => ih _ (hs.union (f.layout.reachVia_proper hr))
    exact hfold ∅ .empty

theorem RecordKind.reach_proper (kind : RecordKind) : kind.reach.Proper := by
  have hlevel : ∀ level kind, (RecordKind.reachWithin level kind).Proper := by
    intro level
    induction level with
    | zero => exact fun kind => .empty
    | succ level ih => exact fun kind => (ViewKind.reachVia_eq _ (.record kind)).2 ih
  exact hlevel _ kind

theorem Layout.reach_proper (layout : Layout) : layout.reach.Proper :=
  layout.reachVia_proper RecordKind.reach_proper

theorem NodeKind.reach_proper (kind : NodeKind) : kind.reach.Proper :=
  (ViewKind.reachVia_eq _ (.node kind)).2 RecordKind.reach_proper

/-- A node reaches what its children reach. -/
theorem NodeKind.contains_reach {kind k : NodeKind} {f : Field}
    (hf : f ∈ (ViewKind.node kind).children) (h : f.layout.reach.contains k = true) :
    kind.reach.contains k = true := (ViewKind.reachVia_eq _ (.node kind)).1 f hf k h

theorem RecordKind.mem_all (kind : RecordKind) : kind ∈ all := by cases kind <;> decide

/-- No record is left out for want of levels. -/
theorem RecordKind.reach_eq (kind : RecordKind) :
    kind.reach = ViewKind.reachVia RecordKind.reach (.record kind) := by
  have htable : ∀ kind ∈ all, reach kind = ViewKind.reachVia reach (.record kind) := by
    decide +kernel
  exact htable kind kind.mem_all

/-- A record reaches what its children reach. -/
theorem RecordKind.contains_reach {kind : RecordKind} {k : NodeKind} {f : Field}
    (hf : f ∈ (ViewKind.record kind).children) (h : f.layout.reach.contains k = true) :
    kind.reach.contains k = true := by
  rw [RecordKind.reach_eq]
  exact (ViewKind.reachVia_eq _ (.record kind)).1 f hf k h

/-! ## The search for needed kinds -/

namespace KindSet

variable {table : List (NodeKind × KindSet)} {found : KindSet} {kind : NodeKind}

theorem grow_cons (entry : NodeKind × KindSet) (rest : List (NodeKind × KindSet))
    (found : KindSet) :
    grow (entry :: rest) found =
      grow rest (if entry.2.intersects found then found.insert entry.1 else found) := rfl

theorem contains_grow (table : List (NodeKind × KindSet)) (h : found.contains kind = true) :
    (grow table found).contains kind = true := by
  induction table generalizing found with
  | nil => exact h
  | cons entry rest ih =>
    rw [grow_cons]
    refine ih ?_
    split
    · simp [h]
    · exact h

/-- A round that adds no kind changes nothing. -/
theorem grow_eq_or (table : List (NodeKind × KindSet)) (found : KindSet) :
    grow table found = found ∨
      ∃ kind, (grow table found).contains kind = true ∧ found.contains kind = false := by
  induction table generalizing found with
  | nil => exact .inl rfl
  | cons entry rest ih =>
    rw [grow_cons]
    split
    · by_cases hc : found.contains entry.1 = true
      · rw [insert_of_contains hc]
        exact ih found
      · refine .inr ⟨entry.1, contains_grow rest ?_, by simpa using hc⟩
        simp
    · exact ih found

/-- A set that a round does not change is closed: it contains every kind that reaches it. -/
theorem closed_of_grow_eq (hproper : ∀ entry ∈ table, entry.2.Proper)
    (hfix : grow table found = found) :
    ∀ entry ∈ table, entry.2.intersects found = true → found.contains entry.1 = true := by
  have hround : ∀ base : KindSet, (∀ k, found.contains k = true → base.contains k = true) →
      ∀ entry ∈ table, entry.2.intersects found = true →
        (grow table base).contains entry.1 = true := by
    clear hfix
    induction table with
    | nil => simp
    | cons head rest ih =>
      intro base hbase entry hentry hmeets
      rw [grow_cons]
      rcases List.mem_cons.mp hentry with rfl | hentry
      · obtain ⟨k, hk, hfound⟩ :=
          (intersects_iff (hproper _ List.mem_cons_self)).mp hmeets
        have hbelow : entry.2.intersects base = true :=
          (intersects_iff (hproper _ List.mem_cons_self)).mpr ⟨k, hk, hbase k hfound⟩
        rw [if_pos hbelow]
        exact contains_grow rest (by simp)
      · refine ih (fun e he => hproper e (List.mem_cons_of_mem head he)) _ (fun k hk => ?_) entry
          hentry hmeets
        split
        · simp [hbase k hk]
        · exact hbase k hk
  intro entry hentry hmeets
  have := hround found (fun _ h => h) entry hentry hmeets
  rwa [hfix] at this

/-- The number of kinds that a set lacks. Every round but the last makes it smaller. -/
def lacking (s : KindSet) : Nat := NodeKind.all.countP fun kind => !s.contains kind

theorem lacking_grow_lt (h : grow table found ≠ found) :
    (grow table found).lacking < found.lacking := by
  rcases grow_eq_or table found with heq | ⟨kind, hnew, hold⟩
  · exact absurd heq h
  · obtain ⟨before, after, hall⟩ := List.append_of_mem kind.mem_all
    have hle : ∀ l : List NodeKind, l.countP (fun k => !(grow table found).contains k) ≤
        l.countP fun k => !found.contains k := by
      intro l
      refine List.countP_mono_left fun k _ hk => ?_
      rw [Bool.not_eq_true'] at hk ⊢
      by_contra hc
      rw [contains_grow table (by simpa using hc)] at hk
      exact absurd hk (by simp)
    unfold lacking
    rw [hall, List.countP_append, List.countP_append, List.countP_cons, List.countP_cons, hnew,
      hold]
    have := hle before
    have := hle after
    simp
    omega

theorem growTimes_eq (table : List (NodeKind × KindSet)) (rounds : Nat) (found : KindSet)
    (h : found.lacking < rounds) :
    grow table (growTimes table rounds found) = growTimes table rounds found := by
  -- every round but the last finds a kind, so the rounds do not run out
  induction rounds generalizing found with
  | zero => omega
  | succ rounds ih =>
    unfold growTimes
    simp only
    split
    · assumption
    · rename_i hne
      have := lacking_grow_lt hne
      exact ih (grow table found) (by omega)

theorem contains_growTimes (rounds : Nat) (h : found.contains kind = true) :
    (growTimes table rounds found).contains kind = true := by
  induction rounds generalizing found with
  | zero => exact h
  | succ rounds ih =>
    unfold growTimes
    simp only
    split
    · exact h
    · exact ih (contains_grow table h)

/-- Registered kinds are needed. -/
theorem contains_needed (h : found.contains kind = true) : found.needed.contains kind = true :=
  contains_growTimes _ h

/-- A kind that reaches a needed kind is needed. -/
theorem needed_closed (registered : KindSet) (kind : NodeKind)
    (h : kind.reach.intersects registered.needed = true) :
    registered.needed.contains kind = true := by
  have hcount : registered.lacking < NodeKind.count + 1 :=
    Nat.lt_succ_of_le List.countP_le_length
  have hfix := growTimes_eq (NodeKind.all.map fun kind => (kind, kind.reach)) _ _ hcount
  refine closed_of_grow_eq ?_ hfix (kind, kind.reach) ?_ h
  · intro entry hentry
    obtain ⟨k, _, rfl⟩ := List.mem_map.mp hentry
    exact k.reach_proper
  · exact List.mem_map_of_mem kind.mem_all

end KindSet

end FlatSyntax
