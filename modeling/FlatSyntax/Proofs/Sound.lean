import Mathlib
import FlatSyntax.Proofs.Heap
import FlatSyntax.Session.Basic

/-!
# Sound heaps and sessions

The invariant that ties together the index, the slots, the handles and the document. The index names
every live object for its place and for no other; an object lies where the document says; a slot
that has been filled holds what the document has there, and what it holds is live. Everything a
session does keeps this, whether it succeeds or fails.

"Up to which object it is" is erasure: `Item.erase` and `Datum.erase` forget the serial numbers.
-/

namespace FlatSyntax

/-- An item without the mark that tells objects apart. -/
def Item.erase {τ : Type} (item : Item τ) : Item Unit := ⟨item.place, item.extent, ()⟩

namespace Datum

variable {ω ω' : Type}

/-- Replaces the view or sequence in a datum. -/
def map (f : ω → ω') : Datum ω → Datum ω'
  | .absent => .absent
  | .byte b => .byte b
  | .word n => .word n
  | .double x => .double x
  | .flag b => .flag b
  | .span s => .span s
  | .regExpFlags flags => .regExpFlags flags
  | .text t => .text t
  | .kind k => .kind k
  | .choice k member => .choice k member
  | .object o => .object (f o)
  | .variant k v o => .variant k v (f o)
  | .slot k c .nothing => .slot k c .nothing
  | .slot k c (.range s) => .slot k c (.range s)
  | .slot k c (.name o) => .slot k c (.name (f o))

/-- A datum without the marks that tell objects apart. -/
def erase {τ : Type} (d : Datum (Item τ)) : Datum (Item Unit) := d.map Item.erase

variable {d : Datum ω}

theorem object?_map (f : ω → ω') (d : Datum ω) : (d.map f).object? = d.object?.map f := by
  cases d with
  | slot k c content => cases content <;> rfl
  | _ => rfl

theorem map_map {ω'' : Type} (f : ω → ω') (g : ω' → ω'') (d : Datum ω) :
    (d.map f).map g = d.map (g ∘ f) := by
  cases d with
  | slot k c content => cases content <;> rfl
  | _ => rfl

theorem map_of_some {o : ω} (hd : d.object? = some o) (f : ω → ω') :
    d.map f = d.map fun _ => f o := by
  cases d with
  | slot k c content =>
    cases content with
    | name o' =>
      cases hd
      rfl
    | _ => cases hd
  | _ => cases hd <;> rfl

variable {m : Type → Type} [Monad m]

/-- There is at most one view or sequence in a datum, so replacing it is at most one action. -/
theorem traverse_of_some {o : ω} (hd : d.object? = some o) (f : ω → m ω') :
    d.traverse f = (fun o' => d.map fun _ => o') <$> f o := by
  cases d with
  | slot k c content =>
    cases content with
    | name o' =>
      cases hd
      rfl
    | _ => cases hd
  | _ => cases hd <;> rfl

theorem traverse_of_none (hd : d.object? = none) (f : ω → m ω') (g : ω → ω') :
    d.traverse f = pure (d.map g) := by
  cases d with
  | slot k c content => cases content <;> first | rfl | cases hd
  | _ => first | rfl | cases hd

end Datum

/-- The object that a later state of an object keeps up: it has not moved, and what its slots have
kept they still keep. -/
def Object.Kept (o o' : Object) : Prop :=
  o'.place = o.place ∧ o'.extent = o.extent ∧
    ∀ (index : Nat) (d : Datum Link), o.slots[index]? = some (some d) →
      o'.slots[index]? = some (some d)

theorem Object.Kept.refl (o : Object) : o.Kept o := ⟨rfl, rfl, fun _ _ h => h⟩

theorem Object.Kept.trans {o p q : Object} (h : o.Kept p) (h' : p.Kept q) : o.Kept q :=
  ⟨h'.1.trans h.1, h'.2.1.trans h.2.1, fun index d hd => h'.2.2 index d (h.2.2 index d hd)⟩

theorem Object.mem_links {o : Object} {index : Nat} {d : Datum Link} {item : Link}
    (hd : o.slots[index]? = some (some d)) (hi : d.object? = some item) : item.mark ∈ o.links := by
  refine List.mem_filterMap.mpr ⟨some d, ?_, ?_⟩
  · exact Array.mem_toList_iff.mpr (Array.mem_of_getElem? hd)
  · simp [hi]

namespace Heap

/-- A link to a live object. -/
def Live (h : Heap) (item : Link) : Prop :=
  ∃ o, h.get? item.mark = some o ∧ o.place = item.place ∧ o.extent = item.extent

/-- The view or sequence in a datum, if there is one, is live. -/
def Holds (h : Heap) (d : Datum Link) : Prop := ∀ item, d.object? = some item → h.Live item

/-- The heap of a session that reads `doc`. -/
structure Sound (doc : Document) (h : Heap) : Prop where
  /-- The index names objects that have been built. -/
  bounded : ∀ {place serial}, h.index.lookup place = some serial → serial < h.constructed
  /-- The index names a live object for its place and for no other. -/
  indexed : ∀ {serial o}, h.get? serial = some o →
    ∀ place, h.index.lookup place = some serial ↔ place = o.place
  /-- A live object lies where the document says. -/
  opened : ∀ {serial o}, h.get? serial = some o → doc.extent o.place = .ok o.extent
  /-- A live object has a slot for each of its parts. -/
  sized : ∀ {serial o}, h.get? serial = some o → o.slots.size = o.extent.count
  /-- What a slot has kept is what the document has there. -/
  kept : ∀ {serial o} {index : Nat} {d}, h.get? serial = some o →
    o.slots[index]? = some (some d) →
      doc.access.slot ⟨o.place, o.extent, ()⟩ index = .ok d.erase
  /-- What a slot has kept is live. -/
  closed : ∀ {serial o} {index : Nat} {d}, h.get? serial = some o →
    o.slots[index]? = some (some d) → h.Holds d

variable {h g : Heap} {doc : Document} {item : Link}

theorem Holds.mono (hlive : ∀ item, h.Live item → g.Live item) {d : Datum Link} (hd : h.Holds d) :
    g.Holds d := fun item hi => hlive item (hd item hi)

theorem Sound.empty (doc : Document) : Heap.empty.Sound doc where
  bounded := by simp [Heap.empty]
  indexed := by simp [get?_empty]
  opened := by simp [get?_empty]
  sized := by simp [get?_empty]
  kept := by simp [get?_empty]
  closed := by simp [get?_empty]

/-- Two live objects at one place are one object. -/
theorem Sound.unique (hs : h.Sound doc) {a b : Link} (ha : h.Live a) (hb : h.Live b)
    (hp : a.place = b.place) : a = b := by
  obtain ⟨o, hga, hpa, hea⟩ := ha
  obtain ⟨p, hgb, hpb, heb⟩ := hb
  have hla := (hs.indexed hga a.place).mpr hpa.symm
  have hlb := (hs.indexed hgb a.place).mpr (hp.trans hpb.symm)
  have hmark : a.mark = b.mark := Option.some.inj (hla.symm.trans hlb)
  have hop : o = p := Option.some.inj (hga.symm.trans (hmark ▸ hgb))
  obtain ⟨pa, ea, ma⟩ := a
  obtain ⟨pb, eb, mb⟩ := b
  simp only at hp hmark hea heb
  rw [hp, hmark, ← hea, ← heb, hop]

/-- A live object is what opening its place in the document gives. -/
theorem Sound.openPlace_eq (hs : h.Sound doc) (hi : h.Live item) :
    doc.openPlace item.place = .ok item.erase := by
  obtain ⟨o, hget, hplace, hextent⟩ := hi
  have hopened := hs.opened hget
  rw [hplace, hextent] at hopened
  unfold Document.openPlace
  rw [hopened]
  rfl

/-- A live object is the one that a request for its place finds. -/
theorem Sound.find?_of_live (hs : h.Sound doc) (hi : h.Live item) :
    h.find? item.place = some item.mark := by
  obtain ⟨o, hget, hp, _⟩ := hi
  exact find?_eq_some_iff.mpr ⟨(hs.indexed hget item.place).mpr hp.symm, o, hget⟩

/-- What a request for a place finds is a live object at that place. -/
theorem Sound.live_of_find? (hs : h.Sound doc) {place : Place} {serial : Nat}
    (hf : h.find? place = some serial) :
    ∃ o, h.get? serial = some o ∧ o.place = place ∧ doc.extent place = .ok o.extent := by
  obtain ⟨hl, o, hget⟩ := find?_eq_some_iff.mp hf
  have hp : place = o.place := (hs.indexed hget place).mp hl
  exact ⟨o, hget, hp.symm, hp ▸ hs.opened hget⟩

theorem Sound.absent_of_find? (hs : h.Sound doc) {place : Place} (hf : h.find? place = none) :
    ∀ item, h.Live item → item.place ≠ place := by
  intro item hi hp
  have := hs.find?_of_live hi
  rw [hp, hf] at this
  exact absurd this (by simp)

/-! ## Adding an object -/

theorem live_add (hi : h.Live item) (o : Object) : (h.add o).2.Live item := by
  obtain ⟨p, hget, hp, he⟩ := hi
  exact ⟨p, get?_add_of_some hget o, hp, he⟩

/-- An object built at a place where there is none. -/
theorem Sound.add (hs : h.Sound doc) {place : Place} {extent : Extent}
    (habsent : ∀ item, h.Live item → item.place ≠ place) (hfits : doc.extent place = .ok extent) :
    (h.add (.fresh place extent)).2.Sound doc := by
  -- an object of the new heap is the new one or was there before
  have hold : ∀ {serial o}, (h.add (.fresh place extent)).2.get? serial = some o →
      (serial = h.constructed ∧ o = .fresh place extent) ∨ h.get? serial = some o := by
    intro serial o hget
    rw [get?_add] at hget
    split at hget
    · rename_i hserial
      exact .inl ⟨hserial, (Option.some.inj hget).symm⟩
    · exact .inr hget
  have hfresh : ∀ {index : Nat} {d : Datum Link},
      (Object.fresh place extent).slots[index]? ≠ some (some d) := by
    intro index d
    simp [Object.fresh, Array.getElem?_replicate]
  constructor
  · intro p serial hl
    rw [lookup_add] at hl
    rw [constructed_add]
    split at hl
    · rw [← Option.some.inj hl]
      exact Nat.lt_succ_self _
    · exact Nat.lt_succ_of_lt (hs.bounded hl)
  · intro serial o hget p
    rw [lookup_add]
    rcases hold hget with ⟨rfl, rfl⟩ | hget
    · by_cases hp : p = place
      · simp [Object.fresh, hp]
      · -- the index may name objects that are gone, but none that is yet to come
        have hne : h.index.lookup p ≠ some h.constructed := fun hl =>
          absurd (hs.bounded hl) (Nat.lt_irrefl _)
        simp [Object.fresh, hp, hne]
    · have hplace : o.place ≠ place := habsent ⟨o.place, o.extent, serial⟩ ⟨o, hget, rfl, rfl⟩
      by_cases hp : p = place
      · have hserial : h.constructed ≠ serial := (Nat.ne_of_lt (get?_lt hget)).symm
        simp [Object.fresh, hp, hserial, Ne.symm hplace]
      · simp only [Object.fresh, hp, if_false]
        exact hs.indexed hget p
  · intro serial o hget
    rcases hold hget with ⟨_, rfl⟩ | hget
    · exact hfits
    · exact hs.opened hget
  · intro serial o hget
    rcases hold hget with ⟨_, rfl⟩ | hget
    · exact Array.size_replicate
    · exact hs.sized hget
  · intro serial o index d hget hd
    rcases hold hget with ⟨_, rfl⟩ | hget
    · exact absurd hd hfresh
    · exact hs.kept hget hd
  · intro serial o index d hget hd
    rcases hold hget with ⟨_, rfl⟩ | hget
    · exact absurd hd hfresh
    · exact (hs.closed hget hd).mono fun item hi => live_add hi _

/-! ## Changing an object in place -/

/-- A change of one object that moves nothing. -/
theorem live_modify {serial : Nat} {f : Object → Object}
    (hf : ∀ o, (f o).place = o.place ∧ (f o).extent = o.extent) :
    (h.modify serial f).Live item ↔ h.Live item := by
  unfold Live
  rw [get?_modify]
  split
  · constructor
    · rintro ⟨o, hget, hp, he⟩
      obtain ⟨p, hp', rfl⟩ := Option.map_eq_some_iff.mp hget
      exact ⟨p, hp', (hf p).1 ▸ hp, (hf p).2 ▸ he⟩
    · rintro ⟨o, hget, hp, he⟩
      exact ⟨f o, by rw [hget]; rfl, (hf o).1.trans hp, (hf o).2.trans he⟩
  · rfl

/-- A change of one object that moves nothing, and fills slots only with what the document has
there. -/
theorem Sound.modify (hs : h.Sound doc) {serial : Nat} {f : Object → Object}
    (hf : ∀ o, (f o).place = o.place ∧ (f o).extent = o.extent)
    (hsize : ∀ o, (f o).slots.size = o.slots.size)
    (hslots : ∀ o (index : Nat) d, h.get? serial = some o → (f o).slots[index]? = some (some d) →
      o.slots[index]? = some (some d) ∨
        (doc.access.slot ⟨o.place, o.extent, ()⟩ index = .ok d.erase ∧ h.Holds d)) :
    (h.modify serial f).Sound doc := by
  have hold : ∀ {k o}, (h.modify serial f).get? k = some o →
      ∃ p, h.get? k = some p ∧ o.place = p.place ∧ o.extent = p.extent ∧
        o.slots.size = p.slots.size ∧ ∀ (index : Nat) d, o.slots[index]? = some (some d) →
          doc.access.slot ⟨p.place, p.extent, ()⟩ index = .ok d.erase ∧ h.Holds d := by
    intro k o hget
    rw [get?_modify] at hget
    split at hget
    · rename_i hk
      subst hk
      obtain ⟨p, hp, rfl⟩ := Option.map_eq_some_iff.mp hget
      refine ⟨p, hp, (hf p).1, (hf p).2, hsize p, fun index d hd => ?_⟩
      rcases hslots p index d hp hd with hd | hd
      · exact ⟨hs.kept hp hd, hs.closed hp hd⟩
      · exact hd
    · exact ⟨o, hget, rfl, rfl, rfl, fun index d hd => ⟨hs.kept hget hd, hs.closed hget hd⟩⟩
  constructor
  · intro place k hl
    rw [constructed_modify]
    exact hs.bounded hl
  · intro k o hget place
    obtain ⟨p, hp, hplace, _, _⟩ := hold hget
    rw [hplace]
    exact hs.indexed hp place
  · intro k o hget
    obtain ⟨p, hp, hplace, hextent, _⟩ := hold hget
    rw [hplace, hextent]
    exact hs.opened hp
  · intro k o hget
    obtain ⟨p, hp, _, hextent, hslot, _⟩ := hold hget
    rw [hslot, hextent]
    exact hs.sized hp
  · intro k o index d hget hd
    obtain ⟨p, _, hplace, hextent, _, hp⟩ := hold hget
    rw [hplace, hextent]
    exact (hp index d hd).1
  · intro k o index d hget hd
    obtain ⟨p, _, _, _, _, hp⟩ := hold hget
    exact (hp index d hd).2.mono fun item hi => (live_modify hf).mpr hi

theorem live_fill {serial index : Nat} {d : Datum Link} :
    (h.fill serial index d).Live item ↔ h.Live item := live_modify fun _ => ⟨rfl, rfl⟩

/-- Filling a slot with what the document has there. -/
theorem Sound.fill (hs : h.Sound doc) (hi : h.Live item) {index : Nat} {d : Datum Link}
    (hd : doc.access.slot item.erase index = .ok d.erase) (hold : h.Holds d) :
    (h.fill item.mark index d).Sound doc := by
  refine hs.modify (fun _ => ⟨rfl, rfl⟩) (fun _ => Array.size_setIfInBounds)
    fun o k e hget hslot => ?_
  obtain ⟨p, hgp, hp, he⟩ := hi
  have hop : o = p := Option.some.inj (hget.symm.trans hgp)
  subst hop
  rw [Array.getElem?_setIfInBounds] at hslot
  split at hslot
  · rename_i hk
    subst hk
    split at hslot
    · have hde : d = e := Option.some.inj (Option.some.inj hslot)
      subst hde
      refine .inr ⟨?_, hold⟩
      rw [hp, he]
      exact hd
    · exact absurd hslot (by simp)
  · exact .inl hslot

/-! ## Letting go -/

theorem Sound.sweep (hs : h.Sound doc) (roots : List Nat) : (h.sweep roots).Sound doc where
  bounded hl := by
    rw [constructed_sweep]
    exact hs.bounded hl
  indexed hget place := hs.indexed (get?_of_sweep hget) place
  opened hget := hs.opened (get?_of_sweep hget)
  sized hget := hs.sized (get?_of_sweep hget)
  kept hget hd := hs.kept (get?_of_sweep hget) hd
  closed hget hd item hi := by
    -- the owner survived the sweep, so it was live before and held the item
    have howner := get?_of_sweep hget
    obtain ⟨p, hp, hplace, hextent⟩ := hs.closed howner hd item hi
    refine ⟨p, ?_, hplace, hextent⟩
    rw [get?_sweep_of_link howner (Object.mem_links hd hi), hp]

theorem Sound.collect (hs : h.Sound doc) (roots : List Nat) : (h.collect roots).Sound doc :=
  collect_induction (fun _ hg => hg.sweep roots) hs

theorem constructed_collect (h : Heap) (roots : List Nat) :
    (h.collect roots).constructed = h.constructed :=
  collect_induction (P := fun g => g.constructed = h.constructed)
    (fun g hg => (constructed_sweep g roots).trans hg) rfl

theorem get?_of_collect {roots : List Nat} {serial : Nat} {o : Object}
    (hget : (h.collect roots).get? serial = some o) : h.get? serial = some o :=
  collect_induction (P := fun g => g.get? serial = some o → h.get? serial = some o)
    (fun _ hg hget => hg (get?_of_sweep hget)) id hget

theorem get?_collect_of_root {roots : List Nat} {serial : Nat} (hr : serial ∈ roots) :
    (h.collect roots).get? serial = h.get? serial :=
  collect_induction (P := fun g => g.get? serial = h.get? serial)
    (fun _ hg => (get?_sweep_of_root hr).trans hg) rfl

theorem live_collect_of_root {roots : List Nat} (hr : item.mark ∈ roots) (hi : h.Live item) :
    (h.collect roots).Live item := by
  obtain ⟨o, hget, hp, he⟩ := hi
  exact ⟨o, (get?_collect_of_root hr).trans hget, hp, he⟩

end Heap

namespace Session

/-- The invariant of a session. -/
structure Sound (s : Session) : Prop where
  /-- The heap is sound for the document. -/
  heap : s.heap.Sound s.document
  /-- What handles hold is live. -/
  handles : ∀ entry ∈ s.handles, s.heap.Holds entry.2
  /-- What running walks hold is live. -/
  pins : ∀ serial ∈ s.pins, ∃ o, s.heap.get? serial = some o

theorem Sound.start (document : Document) (token : UInt32) : (start document token).Sound where
  heap := .empty document
  handles := by simp [Session.start]
  pins := by simp [Session.start]

theorem mem_roots_of_handle {s : Session} {entry : String × Datum Link} {item : Link}
    (he : entry ∈ s.handles) (hi : entry.2.object? = some item) : item.mark ∈ s.roots := by
  refine List.mem_append_left _ (List.mem_filterMap.mpr ⟨entry, he, ?_⟩)
  simp [hi]

theorem mem_roots_of_pin {s : Session} {serial : Nat} (hp : serial ∈ s.pins) : serial ∈ s.roots :=
  List.mem_append_right _ hp

theorem Sound.collect {s : Session} (hs : s.Sound) : s.collect.Sound where
  heap := hs.heap.collect s.roots
  handles entry he item hi :=
    Heap.live_collect_of_root (mem_roots_of_handle he hi) (hs.handles entry he item hi)
  pins serial hp := by
    obtain ⟨o, hget⟩ := hs.pins serial hp
    exact ⟨o, (Heap.get?_collect_of_root (mem_roots_of_pin hp)).trans hget⟩

end Session

end FlatSyntax
