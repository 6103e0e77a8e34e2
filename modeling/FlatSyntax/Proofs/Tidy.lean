import Mathlib
import FlatSyntax.Proofs.Operation

/-!
# Nothing lingers

Between operations, and wherever a callback finds a session, everything that is live is held: by a
handle, by a walk that is running, or by a slot of something live. So there is nothing to be let go
of at those times, and letting go changes nothing.

Reads build objects, but what they build ends up in the slot that was read: the layouts whose slots
keep nothing have no objects.
-/

namespace FlatSyntax

theorem Object.mem_links_iff {o : Object} {serial : Nat} :
    serial ∈ o.links ↔ ∃ (index : Nat) (d : Datum Link) (item : Link),
      o.slots[index]? = some (some d) ∧ d.object? = some item ∧ item.mark = serial := by
  constructor
  · intro h
    obtain ⟨slot, hslot, hmark⟩ := List.mem_filterMap.mp h
    obtain ⟨item, hitem, rfl⟩ := Option.map_eq_some_iff.mp hmark
    obtain ⟨d, rfl, hobject⟩ := Option.bind_eq_some_iff.mp hitem
    obtain ⟨index, hindex⟩ := List.getElem?_of_mem hslot
    exact ⟨index, d, item, by rwa [Array.getElem?_toList] at hindex, hobject, rfl⟩
  · rintro ⟨index, d, item, hd, hi, rfl⟩
    exact mem_links hd hi

namespace Heap

variable {h : Heap} {roots roots' : List Nat}

/-- Every live object is listed, or a live object holds it. -/
def Tidy (h : Heap) (roots : List Nat) : Prop :=
  ∀ serial o, h.get? serial = some o →
    serial ∈ roots ∨ ∃ holder p, h.get? holder = some p ∧ serial ∈ p.links

theorem Tidy.mono (ht : h.Tidy roots) (hsub : ∀ serial ∈ roots, serial ∈ roots') :
    h.Tidy roots' := fun serial o hget => (ht serial o hget).imp_left (hsub serial)

/-! ## Letting go -/

/-- There is nothing to be let go of. -/
theorem Tidy.sweep_eq (ht : h.Tidy roots) : h.sweep roots = h := by
  have hobjects : (h.sweep roots).objects = h.objects := by
    refine Array.ext_getElem? fun k => ?_
    simp only [sweep, Array.getElem?_mapIdx]
    cases hk : h.objects[k]? with
    | none => rfl
    | some entry =>
      cases entry with
      | none => simp
      | some o =>
        have hget : h.get? k = some o := by simp [get?, hk]
        have hheld := (held_iff h roots k).mpr ⟨get?_lt hget, ht k o hget⟩
        simp [hheld]
  calc h.sweep roots = ⟨(h.sweep roots).objects, h.index⟩ := rfl
    _ = h := by rw [hobjects]

theorem Tidy.collect_eq (ht : h.Tidy roots) : h.collect roots = h := by
  rw [collect]
  simp only [ht.sweep_eq, Nat.lt_irrefl, if_false]

/-- The live objects, counted by their serial numbers. -/
theorem live_eq_card (h : Heap) :
    h.live = ((Finset.range h.constructed).filter fun k => (h.get? k).isSome = true).card := by
  have hlist : h.objects.toList = (List.range h.constructed).map h.get? := by
    refine List.ext_getElem? fun k => ?_
    rw [Array.getElem?_toList, List.getElem?_map]
    by_cases hk : k < h.constructed
    · rw [List.getElem?_range hk, Option.map_some]
      have hin : k < h.objects.size := hk
      simp [get?, Array.getElem?_eq_getElem hin]
    · have hout : h.objects.size ≤ k := Nat.le_of_not_lt hk
      rw [Array.getElem?_eq_none hout, List.getElem?_eq_none (by simpa using hk)]
      rfl
  calc h.live = h.objects.toList.countP Option.isSome := Array.countP_toList.symm
    _ = (List.range h.constructed).countP (fun k => (h.get? k).isSome) := by
        rw [hlist, List.countP_map]
        rfl
    _ = _ := by
        rw [List.countP_eq_length_filter]
        simp [Finset.card, Finset.filter, Finset.range, Multiset.range]

/-- What is neither listed nor held is let go of, and there is less afterwards. -/
theorem live_sweep_lt {serial : Nat} {o : Object} (hget : h.get? serial = some o)
    (hfree : (h.held roots)[serial]? ≠ some true) : (h.sweep roots).live < h.live := by
  rw [live_eq_card, live_eq_card, constructed_sweep]
  refine Finset.card_lt_card (Finset.ssubset_iff_of_subset ?_ |>.mpr ⟨serial, ?_, ?_⟩)
  · intro k hk
    rw [Finset.mem_filter] at hk ⊢
    obtain ⟨p, hp⟩ := Option.isSome_iff_exists.mp hk.2
    exact ⟨hk.1, Option.isSome_iff_exists.mpr ⟨p, get?_of_sweep hp⟩⟩
  · rw [Finset.mem_filter, Finset.mem_range]
    exact ⟨get?_lt hget, by rw [hget]; rfl⟩
  · rw [Finset.mem_filter, get?_sweep, if_neg hfree]
    simp

/-- Letting go goes on until everything that is left is listed or held. -/
theorem collect_tidy (h : Heap) (roots : List Nat) : (h.collect roots).Tidy roots := by
  induction h using collect.induct roots with
  | case1 h swept hlt ih =>
    rw [collect, if_pos hlt]
    exact ih
  | case2 h swept hlt =>
    rw [collect, if_neg hlt]
    intro serial o hget
    have hheld : (h.held roots)[serial]? = some true := by
      by_contra hfree
      exact hlt (live_sweep_lt hget hfree)
    exact ((held_iff h roots serial).mp hheld).2

/-! ## Adding and filling -/

theorem Tidy.add (ht : h.Tidy roots) (o : Object) : (h.add o).2.Tidy (h.constructed :: roots) := by
  intro serial p hget
  rw [get?_add] at hget
  split at hget
  · rename_i hserial
    exact .inl (hserial ▸ List.mem_cons_self)
  · rcases ht serial p hget with hroot | ⟨holder, q, hq, hlink⟩
    · exact .inl (List.mem_cons_of_mem _ hroot)
    · exact .inr ⟨holder, q, get?_add_of_some hq o, hlink⟩

/-- An empty slot is filled: what it holds then need not be listed any longer. -/
theorem Tidy.fill {serial index : Nat} {o : Object} {d : Datum Link}
    (ht : h.Tidy ((d.object?.map Item.mark).toList ++ roots)) (hget : h.get? serial = some o)
    (hempty : o.slots[index]? = some none) : (h.fill serial index d).Tidy roots := by
  have hfilled : (h.fill serial index d).get? serial =
      some { o with slots := o.slots.setIfInBounds index (some d) } := by
    rw [get?_fill, if_pos rfl, hget]
    rfl
  have hlt : index < o.slots.size := (Array.getElem?_eq_some_iff.mp hempty).1
  -- the slots that were filled before still hold what they held
  have hlinks : ∀ holder q k, h.get? holder = some q → k ∈ q.links →
      ∃ holder q, (h.fill serial index d).get? holder = some q ∧ k ∈ q.links := by
    intro holder q k hq hk
    by_cases hholder : serial = holder
    · subst hholder
      obtain rfl : o = q := Option.some.inj (hget.symm.trans hq)
      obtain ⟨i, e, item, he, hi, rfl⟩ := Object.mem_links_iff.mp hk
      have hne : index ≠ i := by
        rintro rfl
        cases hempty.symm.trans he
      have hkept : (o.slots.setIfInBounds index (some d))[i]? = some (some e) := by
        rwa [Array.getElem?_setIfInBounds_ne hne]
      exact ⟨serial, _, hfilled, Object.mem_links hkept hi⟩
    · exact ⟨holder, q, by rw [get?_fill, if_neg hholder, hq], hk⟩
  intro k p hp
  obtain ⟨q, hq⟩ : ∃ q, h.get? k = some q := by
    rw [get?_fill] at hp
    split at hp
    · obtain ⟨q, hq, _⟩ := Option.map_eq_some_iff.mp hp
      exact ⟨q, hq⟩
    · exact ⟨p, hp⟩
  rcases ht k q hq with hroot | ⟨holder, q', hq', hk⟩
  · rcases List.mem_append.mp hroot with hnew | hroot
    · obtain ⟨item, hitem, rfl⟩ := Option.map_eq_some_iff.mp (Option.mem_toList.mp hnew)
      have hnew : (o.slots.setIfInBounds index (some d))[index]? = some (some d) :=
        Array.getElem?_setIfInBounds_self_of_lt hlt
      exact .inr ⟨serial, _, hfilled, Object.mem_links hnew hitem⟩
    · exact .inl hroot
  · exact .inr (hlinks holder q' k hq' hk)

end Heap

/-- A layout whose slots keep nothing has no view or sequence. -/
theorem Document.object?_of_not_memoized {doc : Document} {field : String} {layout : Layout}
    {pos : Nat} {d : Datum Place} (hm : layout.memoized = false)
    (hl : doc.locate field layout pos = .ok d) : d.object? = none := by
  cases layout with
  | choice kind =>
    obtain ⟨tag, _, h⟩ := ok_of_bind hl
    split at h
    · cases h
      rfl
    · cases h
  | byte | word | double | flag | span | regExpFlags =>
    obtain ⟨a, _, rfl⟩ := ok_of_map hl
    rfl
  | _ => cases hm

/-- There is room for what is read of a slot. -/
theorem Document.slot?_lt {τ : Type} {doc : Document} {item : Item τ} {index : Nat}
    {r : Document.SlotReading} (hext : doc.extent item.place = .ok item.extent)
    (h : doc.slot? item index = some r) : index < item.extent.count := by
  unfold Document.slot? at h
  cases hplace : item.place with
  | view kind pos =>
    rw [hplace] at h hext
    obtain ⟨_, _, hcount⟩ := ok_of_bind hext
    obtain ⟨f, hf, _⟩ := Option.bind_eq_some_iff.mp h
    rw [← Except.ok.inj hcount]
    exact (List.getElem?_eq_some_iff.mp hf).1
  | sequence element pos =>
    rw [hplace] at h
    obtain ⟨_, hguard, _⟩ := Option.bind_eq_some_iff.mp h
    by_contra hge
    rw [guard, if_neg hge] at hguard
    cases hguard

/-- A slot keeps what is read of a layout that is worth keeping. -/
theorem Document.slot?_memoized {τ : Type} {doc : Document} {item : Item τ} {index : Nat}
    {r : Document.SlotReading} (h : doc.slot? item index = some r)
    (hm : r.layout.memoized = true) : r.memoized = true := by
  unfold Document.slot? at h
  split at h
  · obtain ⟨f, _, hr⟩ := Option.bind_eq_some_iff.mp h
    cases hr
    exact hm
  · obtain ⟨_, _, hr⟩ := Option.bind_eq_some_iff.mp h
    cases hr
    rfl

namespace Session

variable {s t : Session} {item : Link}

/-- Everything that is live is held. -/
def Tidy (s : Session) : Prop := s.heap.Tidy s.roots

theorem Tidy.collect_eq (hs : s.Tidy) : s.collect = s := by
  unfold collect
  rw [Heap.Tidy.collect_eq hs]

theorem collect_tidy (s : Session) : s.collect.Tidy := s.heap.collect_tidy s.roots

theorem Grows.roots (h : s.Grows t) : t.roots = s.roots := by
  unfold Session.roots
  rw [h.handles, h.pins]

/-! ## Reads -/

section Reads

variable {roots : List Nat} {field : String} {layout : Layout} {pos : Nat} {d : Datum Link}
  {fault : Fault}

/-- What a request comes to: the object that is at the place already, a new one if there is none, or
a fault. -/
theorem openPlace_cases (hs : s.Sound) (place : Place) :
    (∃ item, s.exec (openPlace place) = (.ok item, s)) ∨
      (∃ extent, (∀ item, s.heap.Live item → item.place ≠ place) ∧
        s.exec (openPlace place) = (.ok ⟨place, extent, s.heap.constructed⟩,
          { s with heap := (s.heap.add (.fresh place extent)).2 })) ∨
      ∃ fault, s.exec (openPlace place) = (.error fault, s) := by
  cases hf : s.heap.find? place with
  | some serial =>
    obtain ⟨o, hget, hp, _⟩ := hs.heap.live_of_find? hf
    have hi : s.heap.Live ⟨place, o.extent, serial⟩ := ⟨o, hget, hp, rfl⟩
    exact .inl ⟨_, openPlace_of_live hs hi⟩
  | none =>
    have hex := openPlace_of_absent hf
    cases hext : s.document.extent place with
    | error fault =>
      rw [hext] at hex
      exact .inr (.inr ⟨fault, hex⟩)
    | ok extent =>
      rw [hext] at hex
      exact .inr (.inl ⟨extent, hs.heap.absent_of_find? hf, hex⟩)

/-- What a request builds, it gives. -/
theorem openPlace_tidy (hs : s.Sound) (ht : s.heap.Tidy roots) {place : Place}
    (h : s.exec (openPlace place) = (.ok item, t)) : t.heap.Tidy (item.mark :: roots) := by
  rcases openPlace_cases hs place with ⟨found, hex⟩ | ⟨extent, _, hex⟩ | ⟨fault, hex⟩
  · cases hex.symm.trans h
    exact ht.mono fun _ => List.mem_cons_of_mem _
  · cases hex.symm.trans h
    exact ht.add (.fresh place extent)
  · cases hex.symm.trans h

/-- What reading a layout comes to: a request for what is in it, which its slot keeps, or no change
at all. -/
theorem decode_cases (hs : s.Sound) {r : Except Fault (Datum Link)}
    (h : s.exec (decode field layout pos) = (r, t)) :
    t = s ∨ layout.memoized = true ∧ ∃ d item place, r = .ok d ∧ d.object? = some item ∧
      s.exec (openPlace place) = (.ok item, t) := by
  rw [exec_decode] at h
  cases hl : s.document.locate field layout pos with
  | error f =>
    rw [hl] at h
    cases h
    exact .inl rfl
  | ok d =>
    cases hd : d.object? with
    | none =>
      simp only [hl, hd] at h
      cases h
      exact .inl rfl
    | some place =>
      have hm : layout.memoized = true := by
        by_contra hm
        rw [Document.object?_of_not_memoized (by simpa using hm) hl] at hd
        cases hd
      simp only [hl, hd] at h
      rcases openPlace_cases hs place with ⟨item, hex⟩ | ⟨extent, _, hex⟩ | ⟨fault, hex⟩
      · rw [hex] at h
        cases h
        exact .inl rfl
      · rw [hex] at h
        cases h
        exact .inr ⟨hm, _, _, place, rfl, by rw [Datum.object?_map, hd]; rfl, hex⟩
      · rw [hex] at h
        cases h
        exact .inl rfl

/-- What reading a layout builds is in what was read. -/
theorem decode_tidy (hs : s.Sound) (ht : s.heap.Tidy roots)
    (h : s.exec (decode field layout pos) = (.ok d, t)) :
    t.heap.Tidy ((d.object?.map Item.mark).toList ++ roots) := by
  rcases decode_cases hs h with rfl | ⟨_, _, item, _, hok, hobject, hopen⟩
  · exact ht.mono fun _ => List.mem_append_right _
  · cases hok
    rw [hobject]
    exact openPlace_tidy hs ht hopen

/-- A slot that is there and has kept nothing. -/
theorem slot_empty (hs : s.Sound) {index : Nat} {r : Document.SlotReading} {o : Object}
    (hget : s.heap.get? item.mark = some o) (hplace : o.place = item.place)
    (hextent : o.extent = item.extent) (hslot : s.heap.slot? item.mark index = none)
    (hr : s.document.slot? item index = some r) : o.slots[index]? = some none := by
  have hopened := hs.heap.opened hget
  rw [hplace, hextent] at hopened
  have hlt : index < o.slots.size := by
    rw [hs.heap.sized hget, hextent]
    exact Document.slot?_lt hopened hr
  rw [Heap.slot?, hget, Option.bind_some, Array.getElem?_eq_getElem hlt] at hslot
  rw [Array.getElem?_eq_getElem hlt]
  exact congrArg some hslot

/-- Reading a slot leaves nothing that is not held: what was built for it, it keeps. -/
theorem slot_tidy (hs : s.Sound) (hi : s.heap.Live item) (ht : s.Tidy) (index : Nat) :
    (s.exec (slot item index)).2.Tidy := by
  cases hslot : s.heap.slot? item.mark index with
  | some d =>
    rw [slot_of_kept hslot]
    exact ht
  | none =>
    have hex := slot_of_empty hslot
    cases hr : s.document.slot? item index with
    | none =>
      rw [hr] at hex
      rw [hex]
      exact ht
    | some r =>
      obtain ⟨⟨out, t⟩, hout⟩ : ∃ out, s.exec (decode r.field r.layout r.pos) = out := ⟨_, rfl⟩
      simp only [hr, hout] at hex
      have hdecode := decode_cases hs hout
      cases out with
      | error fault =>
        rw [hex]
        rcases hdecode with rfl | ⟨_, _, _, _, hok, _⟩
        · exact ht
        · cases hok
      | ok d =>
        have hgrows := (decode_reading hs r.field r.layout r.pos).reads.grows
        rw [hout] at hgrows
        have hroots : t.roots = s.roots := hgrows.roots
        have htidy := decode_tidy hs ht hout
        rw [← hroots] at htidy
        rw [hex]
        cases hm : r.memoized with
        | true =>
          obtain ⟨o, hget, hplace, hextent⟩ := hi
          have hsame := get?_decode hs r.field r.layout r.pos (Heap.get?_lt hget)
          rw [hout, hget] at hsame
          exact htidy.fill hsame (slot_empty hs hget hplace hextent hslot hr)
        | false =>
          rcases hdecode with rfl | ⟨hm', _⟩
          · exact ht
          · rw [Document.slot?_memoized hr hm'] at hm
            cases hm

theorem child_tidy (hs : s.Sound) (hd : s.heap.Holds d) (ht : s.Tidy) (segment : Segment) :
    (s.exec (Path.child s.document access d segment)).2.Tidy := by
  cases segment with
  | key name =>
    unfold Path.child
    cases hv : d.view? with
    | none => exact ht
    | some found =>
      obtain ⟨kind, pos, item⟩ := found
      have hi := hd item (Datum.object?_of_view? hv).1
      change (s.exec (Path.field s.document access kind pos item name)).2.Tidy
      unfold Path.field
      cases kind.fields.findIdx? fun field => field.key == name with
      | some index =>
        change (s.exec (some <$> slot item index)).2.Tidy
        rw [exec_map]
        exact slot_tidy hs hi ht index
      | none =>
        cases kind with
        | record kind => exact ht
        | node kind =>
          change (s.exec (Session.ofExcept (s.document.property kind pos name))).2.Tidy
          rw [exec_ofExcept]
          exact ht
  | index n =>
    unfold Path.child
    cases hq : d.sequence? with
    | none => exact ht
    | some found =>
      obtain ⟨element, item⟩ := found
      have hi := hd item (Datum.object?_of_sequence? hq)
      change (s.exec (if n < item.extent.count then some <$> slot item n else pure none)).2.Tidy
      split
      · rw [exec_map]
        exact slot_tidy hs hi ht n
      · exact ht

/-- Following a path reads slots only. -/
theorem path_tidy {doc : Document} (hs : s.Sound) (hdoc : s.document = doc) (hd : s.heap.Holds d)
    (ht : s.Tidy) (path : List Segment) : (s.exec (Path.follow doc access d path)).2.Tidy := by
  induction path generalizing s d with
  | nil => exact ht
  | cons segment rest ih =>
    obtain ⟨hreads, hout⟩ := child_reading hs hd segment
    have htidy := child_tidy hs hd ht segment
    rw [hdoc] at hreads hout htidy
    unfold Path.follow
    rw [exec_bind]
    generalize s.exec (Path.child doc access d segment) = r at hreads hout htidy ⊢
    obtain ⟨r, t⟩ := r
    generalize Path.child doc doc.access d.erase segment = y at hout
    cases hout with
    | error f => exact htidy
    | ok hab =>
      cases hab with
      | none => exact htidy
      | some hab => exact ih hreads.sound (hreads.grows.document.trans hdoc) hab.1 htidy

theorem follow_tidy (hs : s.Sound) (hd : s.heap.Holds d) (ht : s.Tidy) (path : List Segment) :
    (s.exec (follow d path)).2.Tidy := path_tidy hs rfl hd ht path

end Reads

/-! ## Sessions that operations lead to -/

theorem pin_tidy (ht : s.heap.Tidy (item.mark :: s.roots)) : ((pin item.mark).run s).2.Tidy := by
  refine Heap.Tidy.mono ht fun serial hserial => ?_
  rcases List.mem_cons.mp hserial with rfl | hserial
  · exact mem_roots_of_pin List.mem_cons_self
  · rcases List.mem_append.mp hserial with hhandle | hpin
    · exact List.mem_append_left _ hhandle
    · exact mem_roots_of_pin (List.mem_cons_of_mem _ hpin)

/-- Every operation lets go of what nothing holds when it is over. -/
theorem perform_tidy (op : Operation) (s : Session) : ((perform op).run s).2.Tidy := by
  cases op <;> rw [perform] <;> exact collect_tidy _

theorem exec_of_openNode {event : Event} (h : (openNode event).run s = (some item, t)) :
    s.exec (openPlace (.view (.node event.kind) event.pos)) = (.ok item, t) := by
  rw [openNode_eq] at h
  generalize s.exec (openPlace (.view (.node event.kind) event.pos)) = out at h ⊢
  obtain ⟨r, u⟩ := out
  cases r with
  | error fault => cases h
  | ok found =>
    cases h
    rfl

theorem Leads.tidy (h : s.Leads t) (hs : s.Sound) (hdepth : s.depth = 0) (ht : s.Tidy) :
    t.Tidy := by
  induction h with
  | refl => exact ht
  | step _ op _ => exact perform_tidy op _
  | @hold u v hlead spot held d kind pos item handle found view ih =>
    have hsound := (hlead.passes hs hdepth).sound
    have htidy := follow_tidy hsound (handle_holds hsound handle) ih spot.path
    have hex : u.exec (follow held spot.path) = (.ok (some d), v) := found
    rw [hex] at htidy
    exact pin_tidy (htidy.mono fun _ => List.mem_cons_of_mem _)
  | @enter u v hlead event item opened ih =>
    have hsound := (hlead.passes hs hdepth).sound
    have htidy := openPlace_tidy hsound ih (exec_of_openNode opened)
    rw [← (openNode_reads hsound opened).1.grows.roots] at htidy
    exact pin_tidy htidy
  | leave _ _ => exact collect_tidy _

theorem start_tidy (doc : Document) (token : UInt32) : (start doc token).Tidy :=
  fun serial _ hget => absurd (hget.symm.trans (Heap.get?_empty serial)) nofun

theorem ofRoot_tidy {doc : Document} {token : UInt32} {pos : Nat}
    (h : ofRoot doc token pos = .ok s) : s.Tidy := by
  have h : (match (start doc token).exec (decode "root" (.record .root) pos) with
    | (result, t) => result.map fun d => t.save rootHandle d) = .ok s := h
  obtain ⟨⟨r, t⟩, hex⟩ : ∃ out, (start doc token).exec (decode "root" (.record .root) pos) = out :=
    ⟨_, rfl⟩
  rw [hex] at h
  cases r with
  | error fault => cases h
  | ok d =>
    cases h
    have htidy := decode_tidy (.start doc token) (start_tidy doc token) hex
    refine Heap.Tidy.mono htidy fun serial hserial => ?_
    rcases List.mem_append.mp hserial with hserial | hserial
    · obtain ⟨item, hitem, rfl⟩ := Option.map_eq_some_iff.mp (Option.mem_toList.mp hserial)
      have hentry : (rootHandle, d) ∈ (t.save rootHandle d).handles := List.mem_cons_self
      exact mem_roots_of_handle hentry hitem
    · cases hserial

theorem Reachable.tidy {doc : Document} (h : Reachable doc s) : s.Tidy := by
  cases h with
  | bare token h => exact h.tidy (.start doc token) rfl (start_tidy doc token)
  | root opened h =>
    obtain ⟨_, hs, hdepth⟩ := ofRoot_sound opened
    exact h.tidy hs hdepth (ofRoot_tidy opened)

end Session

end FlatSyntax
