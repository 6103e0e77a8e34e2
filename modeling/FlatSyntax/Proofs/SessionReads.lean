import Mathlib
import FlatSyntax.Proofs.Reading

/-!
# The reads of a session against the reads of its document

Requests for places, reads of layouts and reads of slots give in a sound session what the document
gives, up to which object it is, and keep the session sound. A read that fails leaves nothing behind.
-/

namespace FlatSyntax

theorem Document.slot?_erase {τ : Type} (doc : Document) (item : Item τ) (index : Nat) :
    doc.slot? item.erase index = doc.slot? item index := by
  obtain ⟨place, extent, mark⟩ := item
  cases place <;> rfl

namespace Session

/-- A datum of a session and one read from the document are the same up to which object it is, and
the object is live. -/
def Agrees (s : Session) (d : Datum Link) (e : Datum (Item Unit)) : Prop :=
  s.heap.Holds d ∧ d.erase = e

theorem Agrees.mono {s t : Session} {d : Datum Link} {e : Datum (Item Unit)} (h : s.Agrees d e)
    (hst : s.Reads t) : t.Agrees d e := ⟨h.1.mono hst.grows.live, h.2⟩

theorem Agrees.of_scalar {s : Session} {d : Datum Link} (hd : d.object? = none) :
    s.Agrees d d.erase := by
  refine ⟨fun item hi => ?_, rfl⟩
  rw [hd] at hi
  exact absurd hi (by simp)

/-! ## Requests -/

variable {s t : Session} {item : Link}

/-- A request for the place of a live object gives that object and changes nothing. -/
theorem openPlace_of_live (hs : s.Sound) (hi : s.heap.Live item) :
    s.exec (openPlace item.place) = (.ok item, s) := by
  have hf := hs.heap.find?_of_live hi
  obtain ⟨o, hget, hp, he⟩ := hi
  obtain ⟨place, extent, mark⟩ := item
  unfold openPlace
  rw [exec_bind_ok s (exec_get s)]
  simp only at hf hget he
  simp [hf, hget, he]

/-- A request for a place without a live object builds one, if its bytes lie in the buffer. -/
theorem openPlace_of_absent {place : Place} (hf : s.heap.find? place = none) :
    s.exec (openPlace place) =
      match s.document.extent place with
      | .ok extent =>
        (.ok ⟨place, extent, s.heap.constructed⟩,
          { s with heap := (s.heap.add (.fresh place extent)).2 })
      | .error f => (.error f, s) := by
  unfold openPlace
  rw [exec_bind_ok s (exec_get s)]
  simp only [hf]
  rw [exec_bind, exec_ofExcept]
  cases s.document.extent place <;> rfl

/-- A request leaves the objects that were there as they were. -/
theorem get?_openPlace (hs : s.Sound) (place : Place) {serial : Nat}
    (hlt : serial < s.heap.constructed) :
    (s.exec (openPlace place)).2.heap.get? serial = s.heap.get? serial := by
  cases hf : s.heap.find? place with
  | some k =>
    obtain ⟨o, hget, hp, _⟩ := hs.heap.live_of_find? hf
    have hi : s.heap.Live ⟨place, o.extent, k⟩ := ⟨o, hget, hp, rfl⟩
    have hex := openPlace_of_live hs hi
    simp only at hex
    rw [hex]
  | none =>
    rw [openPlace_of_absent hf]
    cases s.document.extent place with
    | error f => rfl
    | ok extent =>
      change (s.heap.add (.fresh place extent)).2.get? serial = _
      rw [Heap.get?_add, if_neg (Nat.ne_of_lt hlt)]

theorem openPlace_reading (hs : s.Sound) (place : Place) :
    s.Reading (openPlace place) fun t r =>
      Matches (fun item e => t.heap.Live item ∧ item.erase = e) r
        (s.document.openPlace place) := by
  cases hf : s.heap.find? place with
  | some serial =>
    obtain ⟨o, hget, hp, hext⟩ := hs.heap.live_of_find? hf
    have hi : s.heap.Live ⟨place, o.extent, serial⟩ := ⟨o, hget, hp, rfl⟩
    have hex := openPlace_of_live hs hi
    refine ⟨?_, ?_⟩ <;> rw [hex]
    · exact .refl hs
    · simp only [Document.openPlace, hext]
      exact .ok ⟨hi, rfl⟩
  | none =>
    have hex := openPlace_of_absent hf
    have habsent := hs.heap.absent_of_find? hf
    cases he : s.document.extent place with
    | error f =>
      rw [he] at hex
      refine ⟨?_, ?_⟩ <;> rw [hex]
      · exact .refl hs
      · simp only [Document.openPlace, he]
        exact .error f
    | ok extent =>
      rw [he] at hex
      have hlive : ∀ item, s.heap.Live item →
          (s.heap.add (.fresh place extent)).2.Live item := fun _ hi => Heap.live_add hi _
      refine ⟨?_, ?_⟩ <;> rw [hex]
      · refine ⟨⟨rfl, rfl, rfl, rfl, rfl, hlive⟩, ⟨hs.heap.add habsent he, ?_, ?_⟩, ⟨1, ?_⟩,
          .of_add place extent⟩
        · exact fun entry hentry => (hs.handles entry hentry).mono hlive
        · intro serial hserial
          obtain ⟨o, hget⟩ := hs.pins serial hserial
          exact ⟨o, Heap.get?_add_of_some hget _⟩
        · exact .built place extent habsent he hex rfl (.refl _)
      · simp only [Document.openPlace, he]
        exact .ok ⟨⟨_, Heap.get?_add_self .., rfl, rfl⟩, rfl⟩

/-! ## Layouts -/

/-- Reading a layout is finding the place it leads to, and then at most one request. -/
theorem exec_decode (s : Session) (field : String) (layout : Layout) (pos : Nat) :
    s.exec (decode field layout pos) =
      match s.document.locate field layout pos with
      | .error f => (.error f, s)
      | .ok d =>
        match d.object? with
        | none => (.ok (d.map fun place => ⟨place, ⟨0, 0⟩, 0⟩), s)
        | some place =>
          match s.exec (openPlace place) with
          | (.ok item, t) => (.ok (d.map fun _ => item), t)
          | (.error f, t) => (.error f, t) := by
  unfold decode
  rw [exec_bind_ok s (exec_get s), exec_bind, exec_ofExcept]
  cases s.document.locate field layout pos with
  | error f => rfl
  | ok d =>
    cases hd : d.object? with
    | none =>
      simp only [Datum.traverse_of_none hd openPlace fun place => ⟨place, ⟨0, 0⟩, 0⟩, exec_pure, hd]
    | some place =>
      simp only [Datum.traverse_of_some hd openPlace, map_eq_pure_bind, exec_bind, exec_pure, hd]
      obtain ⟨r, t⟩ := s.exec (openPlace place)
      cases r <;> rfl

theorem read_of_locate {doc : Document} {field : String} {layout : Layout} {pos : Nat}
    {d : Datum Place} (hl : doc.locate field layout pos = .ok d) :
    doc.read field layout pos = d.traverse doc.openPlace := by
  simp only [Document.read, hl]
  rfl

theorem decode_reading (hs : s.Sound) (field : String) (layout : Layout) (pos : Nat) :
    s.Reading (decode field layout pos) fun t r =>
      Matches t.Agrees r (s.document.read field layout pos) := by
  have hex := exec_decode s field layout pos
  cases hl : s.document.locate field layout pos with
  | error f =>
    rw [hl] at hex
    refine ⟨?_, ?_⟩ <;> rw [hex]
    · exact .refl hs
    · simp only [Document.read, hl]
      exact .error f
  | ok d =>
    rw [read_of_locate hl]
    cases hd : d.object? with
    | none =>
      simp only [hl, hd] at hex
      refine ⟨?_, ?_⟩ <;> rw [hex]
      · exact .refl hs
      · rw [Datum.traverse_of_none hd _ fun place => ⟨place, ⟨0, 0⟩, ()⟩]
        refine .ok ⟨fun item hi => ?_, Datum.map_map ..⟩
        rw [Datum.object?_map, hd] at hi
        exact absurd hi (by simp)
    | some place =>
      simp only [hl, hd] at hex
      rw [Datum.traverse_of_some hd]
      obtain ⟨hreads, hout⟩ := openPlace_reading hs place
      generalize s.exec (openPlace place) = r at hex hreads hout
      obtain ⟨r, t⟩ := r
      refine ⟨?_, ?_⟩ <;> rw [hex]
      · cases r <;> exact hreads
      · generalize s.document.openPlace place = y at hout
        cases hout with
        | error f => exact .error f
        | @ok item e h =>
          refine .ok ⟨fun other hother => ?_, ?_⟩
          · rw [Datum.object?_map, hd] at hother
            exact Option.some.inj hother ▸ h.1
          · rw [← h.2]
            exact Datum.map_map ..

/-- Reading a layout leaves the objects that were there as they were. -/
theorem get?_decode (hs : s.Sound) (field : String) (layout : Layout) (pos : Nat) {serial : Nat}
    (hlt : serial < s.heap.constructed) :
    (s.exec (decode field layout pos)).2.heap.get? serial = s.heap.get? serial := by
  have hex := exec_decode s field layout pos
  cases hl : s.document.locate field layout pos with
  | error f =>
    rw [hl] at hex
    rw [hex]
  | ok d =>
    cases hd : d.object? with
    | none =>
      simp only [hl, hd] at hex
      rw [hex]
    | some place =>
      have hopen := get?_openPlace hs place hlt
      simp only [hl, hd] at hex
      rw [hex]
      generalize s.exec (openPlace place) = r at hopen ⊢
      obtain ⟨r, t⟩ := r
      cases r <;> exact hopen

/-! ## Slots -/

/-- A slot that has been filled gives what it has kept, and nothing changes. -/
theorem slot_of_kept {index : Nat} {d : Datum Link}
    (hd : s.heap.slot? item.mark index = some d) : s.exec (slot item index) = (.ok d, s) := by
  unfold slot
  rw [exec_bind_ok s (exec_get s)]
  simp [hd]

/-- A slot that is empty is read, and filled if that succeeds. -/
theorem slot_of_empty {index : Nat} (hempty : s.heap.slot? item.mark index = none) :
    s.exec (slot item index) =
      match s.document.slot? item index with
      | none => (.ok .absent, s)
      | some r =>
        match s.exec (decode r.field r.layout r.pos) with
        | (.error f, t) => (.error f, t)
        | (.ok d, t) =>
          (.ok d, if r.memoized then { t with heap := t.heap.fill item.mark index d } else t) := by
  unfold slot
  rw [exec_bind_ok s (exec_get s)]
  simp only [hempty]
  cases s.document.slot? item index with
  | none => rfl
  | some r =>
    simp only [exec_bind]
    generalize s.exec (decode r.field r.layout r.pos) = out
    obtain ⟨out, t⟩ := out
    cases out with
    | error f => rfl
    | ok d => cases r.memoized <;> rfl

/-- Filling an empty slot with what the document has there. -/
theorem Reads.fill (hs : s.Sound) (hi : s.heap.Live item) {index : Nat} {d : Datum Link}
    {e : Datum (Item Unit)} (hempty : s.heap.slot? item.mark index = none) (hd : s.Agrees d e)
    (he : s.document.access.slot item.erase index = .ok e) :
    s.Reads { s with heap := s.heap.fill item.mark index d } := by
  have hlive : ∀ other, s.heap.Live other → (s.heap.fill item.mark index d).Live other :=
    fun _ => Heap.live_fill.mpr
  have hquiet : s.Quiet { s with heap := s.heap.fill item.mark index d } := by
    refine ⟨rfl, Heap.constructed_fill .., fun serial o' hget => ?_⟩
    rw [Heap.get?_fill] at hget
    split at hget
    · rename_i hserial
      subst hserial
      obtain ⟨o, ho, rfl⟩ := Option.map_eq_some_iff.mp hget
      refine ⟨o, ho, rfl, rfl, fun k e hk => ?_⟩
      -- the slot was empty, so what was kept is in another one
      have hne : index ≠ k := by
        rintro rfl
        rw [Heap.slot?_eq_some_iff.mpr ⟨o, ho, hk⟩] at hempty
        exact absurd hempty (by simp)
      simpa [Array.getElem?_setIfInBounds, hne] using hk
    · exact ⟨o', hget, .refl o'⟩
  have hnotes : s.NotesKept { s with heap := s.heap.fill item.mark index d } := by
    refine .of_quiet (Heap.constructed_fill ..) fun {serial o'} hget => ?_
    rw [Heap.get?_fill] at hget
    split at hget
    · obtain ⟨o, ho, rfl⟩ := Option.map_eq_some_iff.mp hget
      exact ⟨o, ho, rfl⟩
    · exact ⟨o', hget, rfl⟩
  refine ⟨⟨rfl, rfl, rfl, rfl, rfl, hlive⟩, ⟨?_, ?_, ?_⟩, ⟨0, .quiet hquiet (.refl _)⟩, hnotes⟩
  · exact hs.heap.fill hi (by rw [he, hd.2]) hd.1
  · exact fun entry hentry => (hs.handles entry hentry).mono hlive
  · intro serial hserial
    obtain ⟨o, hget⟩ := hs.pins serial hserial
    rw [Heap.get?_fill]
    split
    · exact ⟨_, by rw [hget]; rfl⟩
    · exact ⟨o, hget⟩

/-- What a slot has kept is what the document has there. -/
theorem slot_reading_of_kept (hs : s.Sound) (hi : s.heap.Live item) {index : Nat} {d : Datum Link}
    (hslot : s.heap.slot? item.mark index = some d) :
    s.Reading (slot item index) fun t r =>
      Matches t.Agrees r (s.document.access.slot item.erase index) := by
  obtain ⟨o, hget, hd⟩ := Heap.slot?_eq_some_iff.mp hslot
  have hkept := hs.heap.kept hget hd
  have hclosed := hs.heap.closed hget hd
  obtain ⟨p, hgp, hp, he⟩ := hi
  have hop : o = p := Option.some.inj (hget.symm.trans hgp)
  rw [hop, hp, he] at hkept
  refine ⟨?_, ?_⟩ <;> rw [slot_of_kept hslot]
  · exact .refl hs
  · unfold Item.erase
    rw [hkept]
    exact .ok ⟨hclosed, rfl⟩

/-- A slot that has kept nothing yet is read from the document, and keeps what was read unless that
fails. -/
theorem slot_reading_of_empty (hs : s.Sound) (hi : s.heap.Live item) {index : Nat}
    {r : Document.SlotReading}
    (hslot : s.heap.slot? item.mark index = none) (hr : s.document.slot? item index = some r) :
    s.Reading (slot item index) fun t out =>
      Matches t.Agrees out (s.document.access.slot item.erase index) := by
  have haccess : s.document.access.slot item.erase index =
      s.document.read r.field r.layout r.pos := by
    simp [Document.access, Document.slot?_erase, hr]
  have hex := slot_of_empty hslot
  have hold := get?_decode hs r.field r.layout r.pos (Heap.get?_lt hi.choose_spec.1)
  obtain ⟨hreads, hout⟩ := decode_reading hs r.field r.layout r.pos
  rw [hr] at hex
  rw [← haccess] at hout
  simp only at hex
  generalize s.exec (decode r.field r.layout r.pos) = out at hex hold hreads hout
  obtain ⟨out, t⟩ := out
  cases out with
  | error f =>
    refine ⟨?_, ?_⟩ <;> rw [hex]
    · exact hreads
    · exact hout
  | ok d =>
    obtain ⟨e, he, hd⟩ : ∃ e, s.document.access.slot item.erase index = .ok e ∧ t.Agrees d e := by
      generalize s.document.access.slot item.erase index = y at hout
      cases hout with
      | ok h => exact ⟨_, rfl, h⟩
    cases hm : r.memoized with
    | false =>
      simp only [hm] at hex
      refine ⟨?_, ?_⟩ <;> rw [hex]
      · exact hreads
      · exact hout
    | true =>
      have hempty : t.heap.slot? item.mark index = none := by
        simp only [Heap.slot?] at hold hslot ⊢
        rw [hold]
        exact hslot
      have hfill := Reads.fill hreads.sound (hreads.grows.live item hi) hempty hd
        (by rw [hreads.grows.document]; exact he)
      simp only [hm] at hex
      refine ⟨?_, ?_⟩ <;> rw [hex]
      · exact hreads.trans hfill
      · rw [he]
        exact .ok (hd.mono hfill)

theorem slot_reading (hs : s.Sound) (hi : s.heap.Live item) (index : Nat) :
    s.Reading (slot item index) fun t r =>
      Matches t.Agrees r (s.document.access.slot item.erase index) := by
  cases hslot : s.heap.slot? item.mark index with
  | some d => exact slot_reading_of_kept hs hi hslot
  | none =>
    cases hr : s.document.slot? item index with
    | some r => exact slot_reading_of_empty hs hi hslot hr
    | none =>
      have haccess : s.document.access.slot item.erase index = .ok .absent := by
        simp [Document.access, Document.slot?_erase, hr]
      have hex := slot_of_empty hslot
      rw [hr] at hex
      refine ⟨?_, ?_⟩ <;> rw [hex]
      · exact .refl hs
      · rw [haccess]
        exact .ok (.of_scalar rfl)

/-- A read of a slot that fails leaves the slot empty. -/
theorem slot_error (hs : s.Sound) (hi : s.heap.Live item) {index : Nat} {f : Fault}
    (h : s.exec (slot item index) = (.error f, t)) : t.heap.slot? item.mark index = none := by
  cases hslot : s.heap.slot? item.mark index with
  | some d =>
    rw [slot_of_kept hslot] at h
    exact absurd h (by simp)
  | none =>
    rw [slot_of_empty hslot] at h
    cases hr : s.document.slot? item index with
    | none => simp [hr] at h
    | some r =>
      have hold := get?_decode hs r.field r.layout r.pos (Heap.get?_lt hi.choose_spec.1)
      simp only [hr] at h
      generalize s.exec (decode r.field r.layout r.pos) = out at h hold
      obtain ⟨out, u⟩ := out
      cases out with
      | ok d => simp at h
      | error e =>
        have hu : u = t := (Prod.mk.inj h).2
        subst hu
        simp only [Heap.slot?] at hold hslot ⊢
        rw [hold]
        exact hslot

end Session

end FlatSyntax
