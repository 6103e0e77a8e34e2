import Mathlib
import FlatSyntax.Session.Heap

/-!
# The heap: what each operation does to the live objects

Everything about a heap is said through `Heap.get?`, the live object with a serial number, and
through the index. Adding an object leaves the others alone, filling a slot changes one object, and
letting go only ever empties entries, never one that a live object still holds.
-/

namespace FlatSyntax

namespace Heap

variable {h : Heap} {serial : Nat} {o : Object}

theorem get?_empty (serial : Nat) : Heap.empty.get? serial = none := by
  simp [get?, empty]

theorem get?_lt (hs : h.get? serial = some o) : serial < h.constructed := by
  by_contra hge
  have hnone : h.objects[serial]? = none :=
    Array.getElem?_eq_none (by simpa [constructed] using hge)
  simp [get?, hnone] at hs

/-! ## Adding -/

theorem constructed_add (h : Heap) (o : Object) :
    (h.add o).2.constructed = h.constructed + 1 := by
  simp [add, constructed]

theorem get?_add (h : Heap) (o : Object) (serial : Nat) :
    (h.add o).2.get? serial = if serial = h.constructed then some o else h.get? serial := by
  simp only [add, get?, constructed, Array.getElem?_push]
  by_cases hs : serial = h.objects.size <;> simp [hs]

theorem get?_add_self (h : Heap) (o : Object) : (h.add o).2.get? h.constructed = some o := by
  rw [get?_add, if_pos rfl]

theorem get?_add_of_some (hs : h.get? serial = some o) (p : Object) :
    (h.add p).2.get? serial = some o := by
  rw [get?_add, if_neg (Nat.ne_of_lt (get?_lt hs)), hs]

theorem lookup_filter_ne {places : List (Place × Nat)} {place other : Place} (hne : place ≠ other) :
    (places.filter fun entry => entry.1 != other).lookup place = places.lookup place := by
  induction places with
  | nil => rfl
  | cons entry rest ih =>
    obtain ⟨p, serial⟩ := entry
    by_cases hp : p = other
    · subst hp
      have hbeq : (place == p) = false := beq_eq_false_iff_ne.mpr hne
      simp [List.lookup_cons, ih, hbeq]
    · simp [hp, List.lookup_cons, ih]

/-- A new object is the one that the index names for its place; the other places keep theirs. -/
theorem lookup_add (h : Heap) (o : Object) (place : Place) :
    (h.add o).2.index.lookup place =
      if place = o.place then some h.constructed else h.index.lookup place := by
  by_cases hp : place = o.place
  · simp [add, constructed, hp]
  · have hbeq : (place == o.place) = false := beq_eq_false_iff_ne.mpr hp
    simp only [add, List.lookup_cons, hbeq, if_neg hp, lookup_filter_ne hp]

/-! ## Finding -/

theorem find?_eq_some_iff {place : Place} :
    h.find? place = some serial ↔
      h.index.lookup place = some serial ∧ ∃ o, h.get? serial = some o := by
  simp only [find?, Option.filter_eq_some_iff, Option.isSome_iff_exists]

/-! ## Changing an object -/

theorem constructed_modify (h : Heap) (serial : Nat) (f : Object → Object) :
    (h.modify serial f).constructed = h.constructed := by
  simp [modify, constructed]

theorem get?_modify (h : Heap) (serial : Nat) (f : Object → Object) (k : Nat) :
    (h.modify serial f).get? k = if serial = k then (h.get? k).map f else h.get? k := by
  simp only [modify, get?, Array.getElem?_modify]
  split
  · cases h.objects[k]? with
    | none => rfl
    | some entry => cases entry <;> rfl
  · rfl

theorem constructed_fill (h : Heap) (serial index : Nat) (d : Datum Link) :
    (h.fill serial index d).constructed = h.constructed := constructed_modify ..

/-- What a slot keeps after another, or the same, has been filled. -/
theorem get?_fill (h : Heap) (serial index : Nat) (d : Datum Link) (k : Nat) :
    (h.fill serial index d).get? k =
      if serial = k then
        (h.get? k).map fun o => { o with slots := o.slots.setIfInBounds index (some d) }
      else h.get? k := get?_modify ..

theorem slot?_eq_some_iff {index : Nat} {d : Datum Link} :
    h.slot? serial index = some d ↔
      ∃ o, h.get? serial = some o ∧ o.slots[index]? = some (some d) := by
  simp [slot?, Option.bind_eq_some_iff, Option.join_eq_some_iff]

/-! ## Letting go -/

theorem foldl_setIfInBounds_true (serials : List Nat) (table : Array Bool) (k : Nat) :
    (serials.foldl (fun table serial => table.setIfInBounds serial true) table)[k]? = some true ↔
      table[k]? = some true ∨ (k ∈ serials ∧ k < table.size) := by
  induction serials generalizing table with
  | nil => simp
  | cons serial rest ih =>
    rw [List.foldl_cons, ih, Array.getElem?_setIfInBounds, Array.size_setIfInBounds, List.mem_cons]
    by_cases hk : serial = k
    · subst hk
      by_cases hlt : serial < table.size
      · simp [hlt]
      · simp [hlt]
    · simp [hk, Ne.symm hk]

/-- An entry of the table says whether the object is listed or a live object holds it. -/
theorem held_iff (h : Heap) (roots : List Nat) (k : Nat) :
    (h.held roots)[k]? = some true ↔
      k < h.constructed ∧ (k ∈ roots ∨ ∃ serial o, h.get? serial = some o ∧ k ∈ o.links) := by
  have hlinks : k ∈ (h.objects.toList.flatMap fun entry => (entry.map Object.links).getD []) ↔
      ∃ serial o, h.get? serial = some o ∧ k ∈ o.links := by
    simp only [List.mem_flatMap, Array.mem_toList_iff]
    constructor
    · rintro ⟨entry, hentry, hk⟩
      cases entry with
      | none => simp at hk
      | some o =>
        obtain ⟨serial, hlt, hget⟩ := Array.getElem_of_mem hentry
        exact ⟨serial, o, by simp [get?, Array.getElem?_eq_getElem hlt, hget], by simpa using hk⟩
    · rintro ⟨serial, o, hget, hk⟩
      have hentry : h.objects[serial]? = some (some o) := Option.join_eq_some_iff.mp hget
      exact ⟨some o, Array.mem_of_getElem? hentry, by simpa using hk⟩
  rw [held, foldl_setIfInBounds_true, List.mem_append, hlinks]
  have hfalse : ¬ (Array.replicate h.objects.size false)[k]? = some true := by
    rw [Array.getElem?_replicate]
    split <;> simp
  simp only [hfalse, false_or, Array.size_replicate, constructed]
  exact and_comm

theorem constructed_sweep (h : Heap) (roots : List Nat) :
    (h.sweep roots).constructed = h.constructed := by
  simp [sweep, constructed]

theorem get?_sweep (h : Heap) (roots : List Nat) (k : Nat) :
    (h.sweep roots).get? k =
      if (h.held roots)[k]? = some true then h.get? k else none := by
  simp only [sweep, get?, Array.getElem?_mapIdx]
  cases h.objects[k]? with
  | none => simp
  | some entry => by_cases ht : (h.held roots)[k]? = some true <;> simp [ht]

/-- What is left after a sweep was there before. -/
theorem get?_of_sweep {roots : List Nat} (hs : (h.sweep roots).get? serial = some o) :
    h.get? serial = some o := by
  rw [get?_sweep] at hs
  split at hs
  · exact hs
  · exact absurd hs (by simp)

/-- A sweep lets go of nothing that is listed. -/
theorem get?_sweep_of_root {roots : List Nat} (hr : serial ∈ roots) :
    (h.sweep roots).get? serial = h.get? serial := by
  rw [get?_sweep]
  split
  · rfl
  · rename_i ht
    cases hs : h.get? serial with
    | none => rfl
    | some o => exact absurd ((held_iff h roots serial).mpr ⟨get?_lt hs, .inl hr⟩) ht

/-- A sweep lets go of nothing that a live object holds. -/
theorem get?_sweep_of_link {roots : List Nat} {holder : Nat} {p : Object}
    (hh : h.get? holder = some p) (hl : serial ∈ p.links) :
    (h.sweep roots).get? serial = h.get? serial := by
  rw [get?_sweep]
  split
  · rfl
  · rename_i ht
    cases hs : h.get? serial with
    | none => rfl
    | some o => exact absurd ((held_iff h roots serial).mpr ⟨get?_lt hs, .inr ⟨_, _, hh, hl⟩⟩) ht

/-- What holds of a heap and is kept by a sweep holds when everything is settled. -/
theorem collect_induction {P : Heap → Prop} {roots : List Nat}
    (hsweep : ∀ g, P g → P (g.sweep roots)) (hP : P h) : P (h.collect roots) := by
  induction h using collect.induct roots with
  | case1 h swept hlt ih =>
    rw [collect, if_pos hlt]
    exact ih (hsweep h hP)
  | case2 h swept hlt =>
    rw [collect, if_neg hlt]
    exact hP

end Heap

end FlatSyntax
