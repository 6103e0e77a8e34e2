import Mathlib
import FlatSyntax.Proofs.Bytes
import FlatSyntax.Proofs.Identity

/-!
# Reads of whole sequences

Each element of a sequence has one result, a datum or a fault, and every read of the sequence as a
whole can be told from the list of these results. A read that goes through elements in order stops
at the first fault; a search stops at the first match as well, and what comes later makes no
difference.

Which object an element is depends on what was read before, so the results are those that the
elements have once the read is over. An element that was read is kept in its slot, and is the same
object from then on. `Settles` is the rule for this: a computation reads, and what it gives is what is
found in every session that reading leads to from there.
-/

namespace FlatSyntax

/-! ## Lists of results -/

section Results

variable {α β : Type}

/-- The outcome of a read that needs every value: the first fault, or what `R` says of the values. -/
inductive AllOrFirst (R : List α → β → Prop) :
    List (Except Fault α) → Except Fault β → Prop where
  /-- There is no fault. -/
  | all (values : List α) (b : β) (h : R values b) : AllOrFirst R (values.map .ok) (.ok b)
  /-- The first fault comes after some values. -/
  | first (values : List α) (fault : Fault) (rest : List (Except Fault α)) :
      AllOrFirst R (values.map .ok ++ .error fault :: rest) (.error fault)

/-- The outcome of a search: the first value that passes a test, with its position, or the first
fault if that comes before. -/
inductive Finds (p : α → Bool) :
    List (Except Fault α) → Except Fault (Option (Nat × α)) → Prop where
  /-- A value passes, and those before it do not. -/
  | found (before : List α) (a : α) (rest : List (Except Fault α))
      (hbefore : ∀ b ∈ before, p b = false) (ha : p a = true) :
      Finds p (before.map .ok ++ .ok a :: rest) (.ok (some (before.length, a)))
  /-- There is a fault, and the values before it do not pass. -/
  | failed (before : List α) (fault : Fault) (rest : List (Except Fault α))
      (hbefore : ∀ b ∈ before, p b = false) :
      Finds p (before.map .ok ++ .error fault :: rest) (.error fault)
  /-- There is neither. -/
  | missing (values : List α) (hvalues : ∀ b ∈ values, p b = false) :
      Finds p (values.map .ok) (.ok none)

/-- The outcome of asking for one position, which counts from the end if it is negative. -/
structure PicksAt (index : Int) (results : List (Except Fault α)) (out : Except Fault (Option α)) :
    Prop where
  /-- The position is one of the list. -/
  inside : ∀ {k : Nat} {r : Except Fault α}, results[k]? = some r →
    index = k ∨ index = k - results.length → out = r.map some
  /-- The position is not. -/
  outside : (∀ k < results.length, index ≠ k ∧ index ≠ k - results.length) → out = .ok none

/-- Values that come neither before nor after each other. -/
def tied (le : α → α → Bool) (a b : α) : Bool := le a b && le b a

/-- A list in order, with tied values as they were. -/
structure StableSort (le : α → α → Bool) (values sorted : List α) : Prop where
  perm : sorted.Perm values
  ordered : sorted.Pairwise fun a b => le a b = true
  stable : ∀ a, sorted.filter (tied le a) = values.filter (tied le a)

theorem AllOrFirst.map {γ : Type} {R : List α → β → Prop} {R' : List α → γ → Prop} {f : β → γ}
    {results : List (Except Fault α)} {out : Except Fault β} (h : AllOrFirst R results out)
    (hf : ∀ values b, R values b → R' values (f b)) : AllOrFirst R' results (out.map f) := by
  cases h with
  | all values b h => exact .all values (f b) (hf values b h)
  | first values fault rest => exact .first values fault rest

theorem AllOrFirst.mono {R R' : List α → β → Prop} {results : List (Except Fault α)}
    {out : Except Fault β} (h : AllOrFirst R results out)
    (hR : ∀ values b, R values b → R' values b) : AllOrFirst R' results out := by
  cases h with
  | all values b h => exact .all values b (hR values b h)
  | first values fault rest => exact .first values fault rest

theorem AllOrFirst.append {results results' : List (Except Fault α)}
    {out out' : Except Fault (List α)} (h : AllOrFirst (fun values all => all = values) results out)
    (h' : AllOrFirst (fun values all => all = values) results' out') :
    AllOrFirst (fun values all => all = values) (results ++ results') (do return (← out) ++ (← out')) := by
  cases h with
  | first values fault rest =>
    rw [List.append_assoc, List.cons_append]
    exact .first values fault _
  | all values all h =>
    subst h
    cases h' with
    | all values' all' h' =>
      subst h'
      rw [← List.map_append]
      exact .all _ _ rfl
    | first values' fault rest =>
      rw [← List.append_assoc, ← List.map_append]
      exact .first _ fault rest

theorem mapM_allOrFirst {ι : Type} (l : List ι) (r : ι → Except Fault α) :
    AllOrFirst (fun values all => all = values) (l.map r) (l.mapM r) := by
  induction l with
  | nil => exact .all [] [] rfl
  | cons i rest ih =>
    rw [List.mapM_cons, List.map_cons]
    cases r i with
    | error fault => exact .first [] fault _
    | ok a =>
      generalize rest.mapM r = out at ih
      generalize rest.map r = results at ih
      cases ih with
      | all values all h =>
        subst h
        exact .all (a :: all) (a :: all) rfl
      | first values fault rest => exact .first (a :: values) fault rest

/-- A search from some position on, when nothing before it has passed. -/
theorem search_finds (elements : Elements (Except Fault) α) (p : α → Bool) (before : List α)
    (hbefore : ∀ b ∈ before, p b = false) (length : Nat) :
    Finds p (before.map .ok ++ (List.range' before.length length).map elements.get)
      (elements.search p (List.range' before.length length)) := by
  induction length generalizing before with
  | zero =>
    rw [List.range'_zero, List.map_nil, List.append_nil]
    exact .missing before hbefore
  | succ length ih =>
    rw [List.range'_succ, List.map_cons, Elements.search]
    cases elements.get before.length with
    | error fault => exact .failed before fault _ hbefore
    | ok a =>
      change Finds p _ (if p a then _ else _)
      cases ha : p a with
      | true => exact .found before a _ hbefore ha
      | false =>
        have hmore : ∀ b ∈ before ++ [a], p b = false := by
          intro b hb
          rcases List.mem_append.mp hb with hb | hb
          · exact hbefore b hb
          · exact List.mem_singleton.mp hb ▸ ha
        have hrest := ih (before ++ [a]) hmore
        simp only [List.map_append, List.length_append, List.append_assoc] at hrest
        exact hrest

theorem stableSort_mergeSort {le : α → α → Bool} (htrans : ∀ a b c, le a b → le b c → le a c)
    (htotal : ∀ a b, le a b || le b a) (values : List α) :
    StableSort le values (values.mergeSort le) := by
  have hperm := List.mergeSort_perm values le
  refine ⟨hperm, List.pairwise_mergeSort htrans htotal values, fun a => ?_⟩
  -- tied values are in order as they stand, so sorting leaves them a sublist
  have hordered : (values.filter (tied le a)).Pairwise fun b c => le b c = true := by
    refine List.pairwise_of_forall_mem_list fun b hb c hc => ?_
    have hb := (List.mem_filter.mp hb).2
    have hc := (List.mem_filter.mp hc).2
    simp only [tied, Bool.and_eq_true] at hb hc
    exact htrans b a c hb.2 hc.1
  have hsub := List.sublist_mergeSort htrans htotal hordered List.filter_sublist
  have hsub' := hsub.filter (tied le a)
  rw [List.filter_filter] at hsub'
  simp only [Bool.and_self] at hsub'
  exact (hsub'.eq_of_length (hperm.filter _).length_eq.symm).symm

end Results

/-! ## Ranges -/

namespace Bound

/-- A range that starts at a bound has begun by an index. -/
def opensBy : Bound → Nat → Bool
  | .unbounded, _ => true
  | .included first, index => first ≤ index
  | .excluded last, index => last < index

/-- A range that stops at a bound has not stopped before an index. -/
def closesAfter : Bound → Nat → Bool
  | .unbounded, _ => true
  | .included last, index => index ≤ last
  | .excluded first, index => index < first

theorem first_le_iff (start : Bound) {count index : Nat} (hcount : count ≤ largestLong)
    (hindex : index < count) : start.first ≤ index ↔ start.opensBy index = true := by
  cases start with
  | unbounded => simp [first, opensBy]
  | included a => simp [first, opensBy]
  | excluded a =>
    simp only [first, next, opensBy, decide_eq_true_eq]
    omega

theorem lt_stop_iff (stop : Bound) {count index : Nat} (hcount : count ≤ largestLong)
    (hindex : index < count) : index < stop.stop count ↔ stop.closesAfter index = true := by
  cases stop with
  | unbounded => simp [Bound.stop, closesAfter, hindex]
  | included b =>
    simp only [Bound.stop, next, closesAfter, decide_eq_true_eq]
    omega
  | excluded b => simp [Bound.stop, closesAfter]

/-- The indices of a sequence that are in a range. -/
def within (start stop : Bound) (count : Nat) : List Nat :=
  (List.range count).filter fun index => start.opensBy index && stop.closesAfter index

/-- The largest index is never one of a sequence, so it does not matter that it has no successor. -/
theorem drop_range_eq (start stop : Bound) {count : Nat} (hcount : count ≤ largestLong) :
    (List.range (min (stop.stop count) count)).drop (min start.first count) =
      within start stop count := by
  set low := min start.first count with hlow
  set high := min (stop.stop count) count with hhigh
  have hmem : ∀ index, index ∈ (List.range high).drop low ↔ index ∈ within start stop count := by
    intro index
    rw [List.range_eq_range', List.drop_range', List.mem_range'_1, within, List.mem_filter,
      List.mem_range, Bool.and_eq_true]
    constructor
    · rintro ⟨hle, hlt⟩
      have hindex : index < count := by omega
      refine ⟨hindex, (first_le_iff start hcount hindex).mp ?_,
        (lt_stop_iff stop hcount hindex).mp ?_⟩ <;> omega
    · rintro ⟨hindex, hstart, hstop⟩
      have hfirst := (first_le_iff start hcount hindex).mpr hstart
      have hlast := (lt_stop_iff stop hcount hindex).mpr hstop
      omega
  have hdrop : ((List.range high).drop low).Pairwise (· < ·) :=
    List.pairwise_lt_range.sublist (List.drop_sublist ..)
  have hwithin : (within start stop count).Pairwise (· < ·) :=
    List.pairwise_lt_range.sublist List.filter_sublist
  have hperm := (List.perm_ext_iff_of_nodup hdrop.nodup hwithin.nodup).mpr hmem
  exact hperm.eq_of_pairwise (fun a b _ _ hab hba => absurd hab (Nat.lt_asymm hba)) hdrop hwithin

end Bound

/-! ## Single positions -/

section At

variable {m : Type → Type} [Monad m] {α : Type} (elements : Elements m α) {index : Int}

theorem Elements.at?_of_inside {k : Nat} (hk : k < elements.count)
    (h : index = k ∨ index = k - elements.count) :
    elements.at? index = some <$> elements.get k := by
  unfold Elements.at? Elements.get?
  rcases h with rfl | rfl
  · rw [if_pos (Int.natCast_nonneg k), Int.toNat_natCast, if_pos hk]
  · have hback : elements.count - (k - elements.count : Int).natAbs = k := by omega
    rw [if_neg (by omega), if_pos (by omega), hback, if_pos hk]

theorem Elements.at?_of_outside
    (h : ∀ k < elements.count, index ≠ k ∧ index ≠ k - elements.count) :
    elements.at? index = pure none := by
  unfold Elements.at? Elements.get?
  by_cases hsign : 0 ≤ index
  · rw [if_pos hsign, if_neg]
    intro hlt
    exact (h index.toNat hlt).1 (by omega)
  · rw [if_neg hsign, if_neg]
    intro hle
    exact (h (elements.count - index.natAbs) (by omega)).2 (by omega)

end At

namespace Session

variable {α β : Type} {s t u : Session} {item : Link} {element : Layout} {pos : Nat}

/-! ## Elements are kept -/

/-- An element that has been read is kept. -/
theorem slot?_of_read (hs : s.Sound) (hi : s.heap.Live item)
    (hplace : item.place = .sequence element pos) {index : Nat} (hindex : index < item.extent.count)
    {d : Datum Link} (h : s.exec (slot item index) = (.ok d, t)) :
    t.heap.slot? item.mark index = some d := by
  cases hslot : s.heap.slot? item.mark index with
  | some e =>
    rw [slot_of_kept hslot] at h
    cases h
    exact hslot
  | none =>
    have hreading : ∃ r, s.document.slot? item index = some r ∧ r.memoized = true := by
      simp [Document.slot?, hplace, hindex]
    obtain ⟨r, hr, hmemo⟩ := hreading
    obtain ⟨o, hget, _, hextent⟩ := hi
    have hold := get?_decode hs r.field r.layout r.pos (Heap.get?_lt hget)
    rw [slot_of_empty hslot] at h
    simp only [hr] at h
    generalize s.exec (decode r.field r.layout r.pos) = out at h hold
    obtain ⟨out, v⟩ := out
    cases out with
    | error f => cases h
    | ok e =>
      simp only [hmemo, if_true] at h
      cases h
      have hsize : index < o.slots.size := by
        rw [hs.heap.sized hget, hextent]
        exact hindex
      simp only [Heap.slot?, Heap.get?_fill, if_true]
      rw [hold, hget]
      simp [hsize]

/-- A read of an element gives from then on what it gave the first time. -/
theorem slot_again (hs : s.Sound) (hi : s.heap.Live item)
    (hplace : item.place = .sequence element pos) {index : Nat} (hindex : index < item.extent.count)
    (hu : (s.exec (slot item index)).2.Reads u) :
    (u.exec (slot item index)).1 = (s.exec (slot item index)).1 := by
  obtain ⟨hreads, hout⟩ := slot_reading hs hi index
  have hlive := (hreads.trans hu).grows.live item hi
  cases hr : s.exec (slot item index) with
  | mk r t =>
    rw [hr] at hu hreads hout
    cases r with
    | ok d =>
      have hkept := slot?_of_read hs hi hplace hindex hr
      rw [slot_of_kept (hu.steps.toPasses.slot?_kept hkept hlive)]
    | error fault =>
      -- nothing is kept of a fault, but the document has it there
      have hfault := hout.of_error rfl
      have hout' := (slot_reading hu.sound hlive index).outcome
      rw [hu.grows.document, hreads.grows.document, hfault] at hout'
      generalize (u.exec (slot item index)).1 = r at hout'
      cases hout' with
      | error f => rfl

/-! ## What reads settle -/

/-- Running `x` reads, and gives what `y` says in every session that reading leads to from there. -/
def Settles (s : Session) (x : SessionM α) (y : Session → Except Fault α) : Prop :=
  s.Reading x fun t r => ∀ u, t.Reads u → r = y u

theorem Settles.pure (hs : s.Sound) (a : α) : s.Settles (Pure.pure a) fun _ => .ok a :=
  Reading.pure hs fun _ _ => rfl

theorem Settles.bind {x : SessionM α} {f : α → SessionM β} {y : Session → Except Fault α}
    {g : α → Session → Except Fault β} (hx : s.Settles x y)
    (hf : ∀ t a, s.Reads t → t.Settles (f a) (g a)) :
    s.Settles (x >>= f) fun u => y u >>= fun a => g a u := by
  refine Reading.bind hx (fun t a ht ha => ?_) fun t e ht he u hu => ?_
  · refine (hf t a ht).mono fun u r hu hr v hv => ?_
    change r = y v >>= fun a => g a v
    rw [← ha v (hu.trans hv)]
    exact hr v hv
  · change _ = y u >>= fun a => g a u
    rw [← he u hu]
    rfl

theorem Settles.map {x : SessionM α} {y : Session → Except Fault α} (hx : s.Settles x y)
    (f : α → β) : s.Settles (do return f (← x)) fun u => (y u).map f := by
  have hbind := hx.bind fun t a ht => Settles.pure ht.sound (f a)
  refine Reading.mono hbind fun t r _ hr u hu => ?_
  rw [hr u hu]
  cases y u <;> rfl

/-- The elements of a sequence as a session gives them. -/
def results (s : Session) (item : Link) : Elements (Except Fault) (Datum Link) :=
  ⟨(elements item).count, fun index => (s.exec ((elements item).get index)).1⟩

section Sequence

variable (hs : s.Sound) (hi : s.heap.Live item) (hplace : item.place = .sequence element pos)
include hs hi hplace

theorem slot_settles {index : Nat} (hindex : index < item.extent.count) :
    s.Settles (slot item index) fun u => (u.results item).get index :=
  ⟨(slot_reading hs hi index).reads, fun _ hu => (slot_again hs hi hplace hindex hu).symm⟩

theorem mapM_settles (l : List Nat) (hl : ∀ index ∈ l, index < item.extent.count) :
    s.Settles (l.mapM (slot item)) fun u => l.mapM (u.results item).get := by
  induction l generalizing s with
  | nil => exact .pure hs []
  | cons index rest ih =>
    simp only [List.mapM_cons]
    refine (slot_settles hs hi hplace (hl index List.mem_cons_self)).bind fun t d ht => ?_
    have hrest := ih ht.sound (ht.grows.live item hi)
      fun other hother => hl other (List.mem_cons_of_mem index hother)
    exact hrest.bind fun u ds hu => .pure hu.sound (d :: ds)

theorem toList_settles : s.Settles (elements item).toList fun u => (u.results item).toList :=
  mapM_settles hs hi hplace _ fun _ => List.mem_range.mp

theorem search_settles (p : Datum Link → Bool) (l : List Nat)
    (hl : ∀ index ∈ l, index < item.extent.count) :
    s.Settles ((elements item).search p l) fun u => (u.results item).search p l := by
  induction l generalizing s with
  | nil => exact .pure hs none
  | cons index rest ih =>
    simp only [Elements.search]
    refine (slot_settles hs hi hplace (hl index List.mem_cons_self)).bind fun t d ht => ?_
    cases p d with
    | true => exact .pure ht.sound _
    | false =>
      exact ih ht.sound (ht.grows.live item hi)
        fun other hother => hl other (List.mem_cons_of_mem index hother)

theorem outcomes_settles :
    s.Settles (outcomes item) fun u =>
      .ok ((List.range item.extent.count).map (u.results item).get) := by
  have hl : ∀ index ∈ List.range item.extent.count, index < item.extent.count :=
    fun _ => List.mem_range.mp
  unfold outcomes
  generalize List.range item.extent.count = l at hl
  induction l generalizing s with
  | nil => exact .pure hs []
  | cons index rest ih =>
    simp only [List.mapM_cons, List.map_cons]
    obtain ⟨hreads, hout⟩ := slot_settles hs hi hplace (hl index List.mem_cons_self)
    have hone : s.Settles (ExceptT.lift (slot item index).run) fun u =>
        .ok ((u.results item).get index) := ⟨hreads, fun u hu => congrArg Except.ok (hout u hu)⟩
    refine hone.bind (g := fun r u => .ok (r :: rest.map (u.results item).get)) fun t r ht => ?_
    have hrest := ih ht.sound (ht.grows.live item hi)
      fun other hother => hl other (List.mem_cons_of_mem index hother)
    exact hrest.map (r :: ·)

end Sequence

/-- A projection has the outcome that the document has, whenever it is asked for. -/
theorem project_outcome (hs : s.Sound) (hdepth : s.depth = 0) (hi : s.heap.Live item)
    (layout : Layout) (index : Nat) :
    (s.exec (slot item index >>= project layout)).1 =
      s.document.access.slot item.erase index >>=
        Projection.project s.document s.document.access layout := by
  have hread : s.Reading (slot item index >>= project layout) fun _ r => Matches (· = ·) r
      (s.document.access.slot item.erase index >>=
        Projection.project s.document s.document.access layout) := by
    refine (slot_reading hs hi index).bind_matches fun t d _ ht hd => ?_
    have hproject := project_reading ht.sound (ht.grows.depth.trans hdepth) layout hd.1
    rwa [ht.grows.document, hd.2] at hproject
  exact hread.outcome.eq_of_eq

theorem project_sequence (doc : Document) (layout : Layout) (item : Item Unit) :
    Projection.project doc doc.access (.sequence layout) (.object item) =
      ((List.range item.extent.count).mapM fun index =>
        doc.access.slot item index >>= Projection.project doc doc.access layout).map .array := by
  have hmap : ∀ out : Except Fault (List Value),
      (do return Value.array (← out)) = out.map Value.array := by
    intro out
    cases out <;> rfl
  exact hmap _

theorem project_settles (hs : s.Sound) (hdepth : s.depth = 0) (hi : s.heap.Live item)
    (layout : Layout) :
    s.Settles (project (.sequence layout) (.object item)) fun u =>
      ((List.range item.extent.count).mapM fun index =>
        (u.exec (slot item index >>= project layout)).1).map .array := by
  have hholds : s.heap.Holds (.object item) := by
    intro other hother
    cases hother
    exact hi
  obtain ⟨hreads, hout⟩ := project_reading hs hdepth (.sequence layout) hholds
  refine ⟨hreads, fun u hu => ?_⟩
  have hsu := hreads.trans hu
  have helement : ∀ index, (u.exec (slot item index >>= project layout)).1 =
      s.document.access.slot item.erase index >>=
        Projection.project s.document s.document.access layout := by
    intro index
    rw [project_outcome hu.sound (hsu.grows.depth.trans hdepth) (hsu.grows.live item hi),
      hsu.grows.document]
  simp only [helement]
  exact hout.eq_of_eq.trans (project_sequence s.document layout item.erase)

/-! ## Reads and results -/

/-- What the given reads give once `x` has been run tells what `x` gives. -/
def Gives (s : Session) (reads : List (SessionM β)) (x : SessionM α)
    (spec : List (Except Fault β) → Except Fault α → Prop) : Prop :=
  spec (reads.map fun read => ((s.exec x).2.exec read).1) (s.exec x).1

/-- The reads of the single elements of a sequence. -/
def gets (item : Link) : List (SessionM (Datum Link)) :=
  (List.range (elements item).count).map (elements item).get

theorem length_gets (item : Link) : (gets item).length = (elements item).count := by
  simp [gets]

theorem getElem?_gets (item : Link) (k : Nat) :
    (gets item)[k]? =
      if k < (elements item).count then some ((elements item).get k) else none := by
  unfold gets
  rw [List.getElem?_map]
  split
  · rename_i hk
    rw [List.getElem?_range hk]
    rfl
  · rename_i hk
    rw [List.getElem?_eq_none (by simpa using hk)]
    rfl

theorem Settles.gives {x : SessionM α} {y : Session → Except Fault α} {reads : List (SessionM β)}
    {spec : List (Except Fault β) → Except Fault α → Prop} (hx : s.Settles x y)
    (h : ∀ u, spec (reads.map fun read => (u.exec read).1) (y u)) : s.Gives reads x spec := by
  have hout := hx.outcome _ (.refl hx.reads.sound)
  unfold Gives
  rw [hout]
  exact h _

section Whole

variable (hs : s.Sound) (hi : s.heap.Live item) (hplace : item.place = .sequence element pos)
include hs hi hplace

theorem toList_gives :
    s.Gives (gets item) (elements item).toList (AllOrFirst fun ds all => all = ds) := by
  refine (toList_settles hs hi hplace).gives fun u => ?_
  rw [gets, List.map_map]
  exact mapM_allOrFirst _ _

theorem toList_map_gives (f : List (Datum Link) → α) :
    s.Gives (gets item) (do return f (← (elements item).toList))
      (AllOrFirst fun ds out => out = f ds) := by
  refine ((toList_settles hs hi hplace).map f).gives fun u => ?_
  rw [gets, List.map_map]
  exact (mapM_allOrFirst _ _).map fun ds all hall => congrArg f hall

theorem search_map_gives (p : Datum Link → Bool) (f : Nat × Datum Link → α) :
    s.Gives (gets item)
      (do return (← (elements item).search p (List.range (elements item).count)).map f)
      fun results out => ∃ hit, Finds p results hit ∧ out = hit.map (Option.map f) := by
  have hsearch := search_settles hs hi hplace p _ fun _ => List.mem_range.mp
  refine (hsearch.map (Option.map f)).gives fun u => ⟨_, ?_, rfl⟩
  have hfinds := search_finds (u.results item) p [] (by simp) item.extent.count
  rw [List.length_nil, ← List.range_eq_range'] at hfinds
  rw [gets, List.map_map]
  exact hfinds

theorem at_gives (index : Int) :
    s.Gives (gets item) ((elements item).at? index) (PicksAt index) := by
  refine ⟨fun {k r} hr hindex => ?_, fun houtside => ?_⟩
  · rw [List.length_map, length_gets] at hindex
    rw [List.getElem?_map, getElem?_gets] at hr
    split at hr
    · rename_i hk
      rw [(elements item).at?_of_inside hk hindex, exec_map] at hr ⊢
      have hagain := slot_again hs hi hplace hk (.refl (slot_reading hs hi k).reads.sound)
      rw [← Option.some.inj hr]
      exact congrArg (Except.map some) hagain.symm
    · cases hr
  · rw [List.length_map, length_gets] at houtside
    rw [(elements item).at?_of_outside houtside, exec_pure]

theorem slice_gives (start stop : Bound) :
    s.Gives ((Bound.within start stop (elements item).count).map (elements item).get)
      ((elements item).slice start stop) (AllOrFirst fun ds all => all = ds) := by
  obtain ⟨o, hget, hp, he⟩ := id hi
  have hopened := hs.heap.opened hget
  rw [hp, he, hplace] at hopened
  have hcount : item.extent.count ≤ largestLong :=
    (Document.count_lt hopened).le.trans (by decide)
  have hslice : (elements item).slice start stop =
      (Bound.within start stop item.extent.count).mapM (slot item) := by
    rw [← Bound.drop_range_eq start stop hcount]
    rfl
  rw [hslice]
  refine (mapM_settles hs hi hplace _ fun index hindex => ?_).gives fun u => ?_
  · exact List.mem_range.mp (List.mem_filter.mp hindex).1
  · rw [List.map_map]
    exact mapM_allOrFirst _ _

theorem concat_gives {other : Link} {element' : Layout} {pos' : Nat} (ho : s.heap.Live other)
    (hplace' : other.place = .sequence element' pos') :
    s.Gives (gets item ++ gets other) (concat item s.token other)
      (AllOrFirst fun ds all => all = ds) := by
  have hconcat : s.exec (concat item s.token other) =
      s.exec ((elements item).concat (elements other)) := by
    unfold concat
    rw [exec_bind_ok s (exec_get s), if_pos rfl]
  unfold Gives
  rw [hconcat]
  have hsettles := (toList_settles hs hi hplace).bind fun t front ht =>
    (toList_settles ht.sound (ht.grows.live other ho) hplace').bind fun u back hu =>
      Settles.pure hu.sound (front ++ back)
  refine hsettles.gives fun u => ?_
  rw [List.map_append, gets, gets, List.map_map, List.map_map]
  exact (mapM_allOrFirst _ _).append (mapM_allOrFirst _ _)

end Whole

theorem project_gives (hs : s.Sound) (hdepth : s.depth = 0) (hi : s.heap.Live item)
    (layout : Layout) :
    s.Gives ((gets item).map (· >>= project layout)) (project (.sequence layout) (.object item))
      (AllOrFirst fun values out => out = .array values) := by
  refine (project_settles hs hdepth hi layout).gives fun u => ?_
  rw [gets, List.map_map, List.map_map]
  exact (mapM_allOrFirst _ _).map fun values all hall => congrArg Value.array hall

/-- Every read of a sequence as a whole can be told from the results of its elements. -/
structure ReadsAgree (doc : Document) (s : Session) (item : Link) (element : Layout) : Prop where
  /-- An element is what the buffer has there, up to which object it is. -/
  document : ∀ index < (elements item).count,
    ((s.results item).get index).map Datum.erase = doc.access.slot item.erase index
  /-- From the first read on it is the very same. -/
  again : ∀ {index : Nat} {u : Session}, index < (elements item).count →
    (s.exec ((elements item).get index)).2.Reads u →
    (u.results item).get index = (s.results item).get index
  get : ∀ index, s.Gives (gets item) ((elements item).get? index) (PicksAt index)
  /-- Every result is there, whether or not others are faults. -/
  outcomes : s.Gives (gets item) (outcomes item) fun results out => out = .ok results
  toList : s.Gives (gets item) (elements item).toList (AllOrFirst fun ds all => all = ds)
  map : ∀ {α : Type} (f : Datum Link → α),
    s.Gives (gets item) ((elements item).map f) (AllOrFirst fun ds out => out = ds.map f)
  filter : ∀ p,
    s.Gives (gets item) ((elements item).filter p) (AllOrFirst fun ds out => out = ds.filter p)
  fold : ∀ {α : Type} (f : α → Datum Link → α) (start : α),
    s.Gives (gets item) ((elements item).fold f start)
      (AllOrFirst fun ds out => out = ds.foldl f start)
  reversed :
    s.Gives (gets item) (elements item).reversed (AllOrFirst fun ds out => out = ds.reverse)
  /-- Each element is read and projected in its turn. -/
  project : s.Gives ((gets item).map (· >>= project element))
    (project (.sequence element) (.object item)) (AllOrFirst fun values out => out = .array values)
  find : ∀ p, s.Gives (gets item) ((elements item).find? p) fun results out =>
    ∃ hit, Finds p results hit ∧ out = hit.map (Option.map Prod.snd)
  position : ∀ p, s.Gives (gets item) ((elements item).position? p) fun results out =>
    ∃ hit, Finds p results hit ∧ out = hit.map (Option.map Prod.fst)
  /-- A negative index counts from the end. -/
  single : ∀ index, s.Gives (gets item) ((elements item).at? index) (PicksAt index)
  /-- Elements outside the range make no difference. -/
  slice : ∀ start stop,
    s.Gives ((Bound.within start stop (elements item).count).map (elements item).get)
      ((elements item).slice start stop) (AllOrFirst fun ds all => all = ds)
  concat : ∀ {other : Link} {element' : Layout} {pos : Nat}, s.heap.Live other →
    other.place = .sequence element' pos →
    s.Gives (gets item ++ gets other) (concat item s.token other)
      (AllOrFirst fun ds all => all = ds)
  /-- For any order in which two elements can always be compared. -/
  sorted : ∀ {le : Datum Link → Datum Link → Bool}, (∀ a b c, le a b → le b c → le a c) →
    (∀ a b, le a b || le b a) →
    s.Gives (gets item) ((elements item).sorted le) (AllOrFirst (StableSort le))

variable {doc : Document}

/-- The reads of a sequence agree, in every session of a document. -/
theorem readsAgree_of_reachable (h : Reachable doc s) (hi : s.heap.Live item)
    (hplace : item.place = .sequence element pos) : ReadsAgree doc s item element := by
  obtain ⟨hdoc, hs, hdepth⟩ := h.sound
  have hwhole {α : Type} (f : List (Datum Link) → α) := toList_map_gives hs hi hplace f
  constructor
  · intro index _
    have hout := (slot_reading hs hi index).outcome
    rw [hdoc] at hout
    change (s.exec (slot item index)).1.map Datum.erase = _
    generalize (s.exec (slot item index)).1 = r at hout
    generalize doc.access.slot item.erase index = y at hout
    cases hout with
    | ok hd => exact congrArg Except.ok hd.2
    | error fault => rfl
  · exact fun hindex hu => slot_again hs hi hplace hindex hu
  · intro index
    have hat : (elements item).at? index = (elements item).get? index := by
      simp [Elements.at?]
    rw [← hat]
    exact at_gives hs hi hplace index
  · refine (outcomes_settles hs hi hplace).gives fun u => ?_
    rw [gets, List.map_map]
    rfl
  · exact toList_gives hs hi hplace
  · intro α f
    rw [Elements.map_eq]
    exact hwhole (List.map f)
  · intro p
    rw [Elements.filter_eq]
    exact hwhole (List.filter p)
  · intro α f start
    rw [Elements.fold_eq]
    exact hwhole (List.foldl f start)
  · exact hwhole List.reverse
  · exact project_gives hs hdepth hi element
  · exact fun p => search_map_gives hs hi hplace p Prod.snd
  · exact fun p => search_map_gives hs hi hplace p Prod.fst
  · exact at_gives hs hi hplace
  · exact slice_gives hs hi hplace
  · exact concat_gives hs hi hplace
  · intro le htrans htotal
    have hsorted := hwhole (List.mergeSort · le)
    exact hsorted.mono fun ds sorted h => h ▸ stableSort_mergeSort htrans htotal ds

/-! ## An example -/

/-- A sequence of phases at the start of a buffer: one, none, a byte that stands for no phase, and
another. -/
def phases : Document :=
  ⟨#[16, 0, 0, 0, 0, 0, 0, 0, 4, 0, 0, 0, 0, 0, 0, 0, 1, 2, 9, 0], "", false, 0, {}, .saturating⟩

def phase : Layout := .optional (.choice .importPhase)

/-- A session that holds the sequence. -/
def holdingPhases : Session :=
  ((perform (.decode "phases" (.sequence phase) 0 (some "a"))).run (.start phases 1)).2

def heldPhases : Link := ⟨.sequence phase 0, ⟨16, 4⟩, 0⟩

theorem heldPhases_live : holdingPhases.heap.Live heldPhases := by
  have hsound : holdingPhases.Sound :=
    (perform_steps (.decode "phases" (.sequence phase) 0 (some "a")) (.start phases 1) rfl).sound
  have hhandles : holdingPhases.handles = [("a", .object heldPhases)] := by
    unfold holdingPhases
    rw [perform]
    rfl
  exact hsound.handles ("a", .object heldPhases) (by rw [hhandles]; exact List.mem_cons_self)
    heldPhases rfl

theorem readsAgree_of_phases :
    (List.range 4).map (phases.access.slot heldPhases.erase) =
        [.ok (.choice .importPhase ⟨"Defer", 1, "defer"⟩), .ok .absent,
          .error (.unexpectedTag "ImportPhase" 9),
          .ok (.choice .importPhase ⟨"Source", 0, "source"⟩)] ∧
      ReadsAgree phases holdingPhases heldPhases phase :=
  ⟨rfl, readsAgree_of_reachable (.bare 1 (.step .refl _)) heldPhases_live rfl⟩

end Session

end FlatSyntax
