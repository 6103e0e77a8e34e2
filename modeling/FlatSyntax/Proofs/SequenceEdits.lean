import Mathlib
import FlatSyntax.Proofs.Bytes
import FlatSyntax.Proofs.Identity
import FlatSyntax.Proofs.Notes

/-!
# Changing a sequence

Whatever is asked of a sequence, its elements and its length stay what the buffer says. What can be
noted beside them depends on the changes that were made and on nothing else: reading, holding,
letting go and running visitors leave all notes alone.
-/

namespace FlatSyntax

/-- An operation that changes no notes, neither itself nor in the callbacks of a visitor. -/
inductive Operation.IsRead : Operation → Prop where
  | fetch (spot : Spot) (keep : Option String) : IsRead (.fetch spot keep)
  | release (name : String) : IsRead (.release name)
  | viewAt (token : UInt32) (kind : ViewKind) (pos : Nat) (keep : Option String) :
      IsRead (.viewAt token kind pos keep)
  | decode (field : String) (layout : Layout) (pos : Nat) (keep : Option String) :
      IsRead (.decode field layout pos keep)
  | project (spot : Spot) : IsRead (.project spot)
  | parts (spot : Spot) : IsRead (.parts spot)
  | read (spot : Spot) (query : Query) : IsRead (.read spot query)
  | concat (spot : Spot) (token : UInt32) (other : Spot) : IsRead (.concat spot token other)
  | visit (visitor : Visitor) (spot : Spot) {callback : Event → Session → List Operation}
      (calls : ∀ event s, ∀ op ∈ callback event s, IsRead op) :
      IsRead (.visit visitor spot callback)

namespace Session

variable {s t u : Session} {item link : Link} {e : Edit}

/-! ## Operations that leave notes alone -/

/-- A session got from `s` to `t` without a change of notes. -/
structure Spares (s t : Session) : Prop extends Passes s t where
  notes : s.NotesKept t

theorem Spares.refl (hs : s.Sound) : s.Spares s := ⟨.refl hs, .of_heap rfl⟩

theorem Spares.trans (h : s.Spares t) (h' : t.Spares u) : s.Spares u :=
  ⟨h.toPasses.trans h'.toPasses, h.notes.trans h'.notes⟩

theorem Reads.spares (h : s.Reads t) : s.Spares t := ⟨h.steps.toPasses, h.notes⟩

theorem collect_spares (hs : s.Sound) : s.Spares s.collect := by
  refine ⟨collect_passes hs, .of_quiet (Heap.constructed_collect ..) fun {_ o} hget => ?_⟩
  exact ⟨o, Heap.get?_of_collect hget, rfl⟩

theorem pin_spares (hs : s.Sound) (hi : s.heap.Live item) :
    s.Spares ((pin item.mark).run s).2 := ⟨pin_passes hs hi, .of_heap rfl⟩

theorem unpin_spares (hs : s.Sound) : s.Spares (unpin.run s).2 := by
  have hdrop : s.NotesKept { s with pins := s.pins.drop 1 } := .of_heap rfl
  refine ⟨(unpin_passes hs).1, hdrop.trans ?_⟩
  refine .of_quiet (Heap.constructed_collect ..) fun {_ o} hget => ?_
  exact ⟨o, Heap.get?_of_collect hget, rfl⟩

theorem keepAs_spares (hs : s.Sound) (keep : Option String) {d : Datum Link}
    (hd : s.heap.Holds d) : s.Spares (s.exec (keepAs keep d)).2 := by
  refine ⟨(keepAs_steps hs keep hd).toPasses, ?_⟩
  cases keep <;> exact .of_heap rfl

theorem Reading.bind_spares {α β : Type} {x : SessionM α} {f : α → SessionM β}
    {Q : Session → Except Fault α → Prop} (hx : s.Reading x Q)
    (hf : ∀ t a, s.Reads t → Q t (.ok a) → t.Spares (t.exec (f a)).2) :
    s.Spares (s.exec (x >>= f)).2 := by
  obtain ⟨hreads, hout⟩ := hx
  generalize hr : s.exec x = r at hreads hout
  obtain ⟨r, t⟩ := r
  cases r with
  | error fault =>
    rw [exec_bind_error s hr f]
    exact hreads.spares
  | ok a =>
    rw [exec_bind_ok s hr f]
    exact hreads.spares.trans (hf t a hreads hout)

theorem spares_of_reading {α : Type} {x : SessionM α} {Q : Session → Except Fault α → Prop}
    (hx : s.Reading x Q) : s.Spares (s.exec (discard x)).2 := by
  have hdiscard : s.OnlyReads (discard x) := hx.onlyReads.map (Function.const α ())
  exact hdiscard.reads.spares

theorem atSpot_spares (hs : s.Sound) {spot : Spot} {act : Datum Link → SessionM Unit}
    (hact : ∀ t d, s.Reads t → t.heap.Holds d → t.Spares (t.exec (act d)).2) :
    s.Spares (s.exec (atSpot spot act)).2 := by
  unfold atSpot
  rw [exec_bind_ok s (exec_get s)]
  cases hh : s.handle? spot.handle with
  | none => exact .refl hs
  | some held =>
    have hheld : s.heap.Holds held := handle_holds hs hh
    refine (follow_reading hs hheld spot.path).bind_spares fun t found ht hfound => ?_
    cases found with
    | none => exact .refl ht.sound
    | some d =>
      generalize Path.follow s.document s.document.access held.erase spot.path = y at hfound
      cases hfound with
      | ok h =>
        cases h with
        | some h => exact hact t d ht h.1

theorem atSequence_spares (hs : s.Sound) {spot : Spot} {act : Link → SessionM Unit}
    (hact : ∀ t item, s.Reads t → t.heap.Live item → t.Spares (t.exec (act item)).2) :
    s.Spares (s.exec (atSequence spot act)).2 := by
  refine atSpot_spares hs fun t d ht hd => ?_
  cases hq : d.sequence? with
  | none => exact .refl ht.sound
  | some found => exact hact t found.2 ht (hd found.2 (Datum.object?_of_sequence? hq))

theorem settling_spares {act : SessionM Unit} (hact : s.Spares (s.exec act).2) :
    s.Spares ((settling act).run s).2 := hact.trans (collect_spares hact.sound)

/-! ## Runs with callbacks that leave notes alone -/

section Run

variable {α : Type} {callback : Event → Link → StateM Session α}

/-- A callback that leaves notes alone, whatever it is called for. -/
def Sparing (callback : Event → Link → StateM Session α) : Prop :=
  ∀ (s : Session) event item, s.Sound → s.depth = 0 → s.Spares ((callback event item).run s).2

theorem callAll_spares (hcall : Sparing callback) (plan : Plan) (event : Event) (item : Link)
    (hs : s.Sound) (hdepth : s.depth = 0) :
    s.Spares ((callAll plan callback event item).run s).2 := by
  unfold callAll
  generalize plan.callbacks event.phase event.kind = keys
  induction keys generalizing s with
  | nil => exact .refl hs
  | cons key rest ih =>
    rw [List.mapM_cons, run_bind]
    have hfirst := hcall s event item hs hdepth
    exact hfirst.trans (ih hfirst.sound (hfirst.depth.trans hdepth))

theorem unpin_all_spares (hs : s.Sound) (inside : List Link) :
    s.Spares ((inside.forM fun _ => unpin).run s).2 := by
  induction inside generalizing s with
  | nil => exact .refl hs
  | cons item rest ih =>
    have hfirst := unpin_spares hs
    exact hfirst.trans (ih hfirst.sound)

theorem openNode_spares (hs : s.Sound) (event : Event) :
    s.Spares ((openNode event).run s).2 := by
  rw [openNode_eq]
  exact (openPlace_reading hs _).reads.spares

theorem replay_spares (hcall : Sparing callback) (plan : Plan) (events : List Event)
    (inside : List Link) (hs : s.Sound) (hdepth : s.depth = 0) :
    s.Spares ((replay plan callback inside events).run s).2 := by
  induction events generalizing inside s with
  | nil =>
    rw [replay, run_bind]
    exact unpin_all_spares hs inside
  | cons event rest ih =>
    obtain ⟨phase, kind, pos⟩ := event
    cases phase with
    | enter =>
      rw [replay_enter, run_bind]
      have hopened := openNode_spares hs ⟨.enter, kind, pos⟩
      generalize hopen : (openNode ⟨.enter, kind, pos⟩).run s = r at hopened
      obtain ⟨found, t⟩ := r
      cases found with
      | none => exact hopened.trans (ih inside hopened.sound (hopened.depth.trans hdepth))
      | some item =>
        have hpin := pin_spares hopened.sound (openNode_reads hs hopen).2.1
        have hheld := hopened.trans hpin
        have hcalls := callAll_spares hcall plan ⟨.enter, kind, pos⟩ item hheld.sound
          (hheld.depth.trans hdepth)
        have hcalled := hheld.trans hcalls
        exact hcalled.trans (ih (item :: inside) hcalled.sound (hcalled.depth.trans hdepth))
    | exit =>
      cases inside with
      | nil => exact ih [] hs hdepth
      | cons item outer =>
        rw [replay_exit, run_bind]
        have hcalls := callAll_spares hcall plan ⟨.exit, kind, pos⟩ item hs hdepth
        have hleft := hcalls.trans (unpin_spares hcalls.sound)
        exact hleft.trans (ih outer hleft.sound (hleft.depth.trans hdepth))

theorem run_spares (hcall : Sparing callback) (visitor : Visitor) (hs : s.Sound)
    (hdepth : s.depth = 0) (hi : s.heap.Live item) :
    s.Spares ((run visitor callback item).run s).2 := by
  unfold run
  cases item.place with
  | sequence element pos => exact .refl hs
  | view kind pos =>
    simp only
    rw [run_bind]
    have hpin := pin_spares hs hi
    have hreplay := replay_spares hcall (visitor.walk s.document kind pos).2.plan
      (visitor.walk s.document kind pos).1.events [] hpin.sound (hpin.depth.trans hdepth)
    have hran := hpin.trans hreplay
    exact hran.trans (unpin_spares hran.sound)

end Run

theorem performAll_spares (ops : List Operation) (hops : ∀ op ∈ ops, ∀ {s : Session}, s.Sound →
    s.depth = 0 → s.Spares ((perform op).run s).2) (hs : s.Sound) (hdepth : s.depth = 0) :
    s.Spares ((performAll ops).run s).2 := by
  induction ops generalizing s with
  | nil =>
    rw [performAll]
    exact .refl hs
  | cons op rest ih =>
    rw [performAll, run_bind]
    have hfirst := hops op List.mem_cons_self hs hdepth
    exact hfirst.trans (ih (fun other hother => hops other (List.mem_cons_of_mem op hother))
      hfirst.sound (hfirst.depth.trans hdepth))

/-- What an operation does that changes no notes. -/
theorem perform_spares {op : Operation} (h : op.IsRead) :
    ∀ {s : Session}, s.Sound → s.depth = 0 → s.Spares ((perform op).run s).2 := by
  -- along the nesting of callbacks
  induction h with
  | fetch spot keep =>
    intro s hs _
    rw [perform]
    exact settling_spares (atSpot_spares hs fun t d ht hd => keepAs_spares ht.sound keep hd)
  | release name =>
    intro s hs _
    rw [perform]
    exact settling_spares ⟨(release_steps hs name).toPasses, .of_heap rfl⟩
  | viewAt token kind pos keep =>
    intro s hs _
    rw [perform]
    refine settling_spares ((viewAt_reading hs token kind pos).bind_spares fun t d ht hd => ?_)
    exact keepAs_spares ht.sound keep (hd d rfl)
  | decode field layout pos keep =>
    intro s hs _
    rw [perform]
    refine settling_spares ((decode_holds hs field layout pos).bind_spares fun t d ht hd => ?_)
    exact keepAs_spares ht.sound keep (hd d rfl)
  | project spot =>
    intro s hs hdepth
    rw [perform]
    refine settling_spares (atSpot_spares hs fun t d ht hd => ?_)
    cases d.layout? with
    | none => exact .refl ht.sound
    | some layout =>
      exact spares_of_reading
        (project_reading ht.sound (ht.grows.depth.trans hdepth) layout hd)
  | parts spot =>
    intro s hs _
    rw [perform]
    refine settling_spares (atSpot_spares hs fun t d ht hd => ?_)
    cases d with
    | slot k c content =>
      obtain ⟨content', he⟩ : ∃ content', (Datum.slot k c content).erase = .slot k c content' := by
        cases content <;> exact ⟨_, rfl⟩
      exact spares_of_reading (slotParts_reading ht.sound rfl hd he)
    | _ => exact .refl ht.sound
  | read spot q =>
    intro s hs _
    rw [perform]
    refine settling_spares (atSequence_spares hs fun t item ht hi => ?_)
    exact (query_onlyReads ht.sound hi q).reads.spares
  | concat spot token other =>
    intro s hs _
    rw [perform]
    refine settling_spares (atSpot_spares hs fun t d ht hd => ?_)
    cases hq : d.sequence? with
    | none => exact .refl ht.sound
    | some found =>
      have hi := hd found.2 (Datum.object?_of_sequence? hq)
      refine atSequence_spares ht.sound fun u otherItem hu ho => ?_
      exact spares_of_reading
        (concat_onlyReads hu.sound (hu.grows.live found.2 hi) ho token)
  | @visit visitor spot callback _ ih =>
    intro s hs hdepth
    have hcall : Sparing (carryOut callback) := fun u event _ hu hdepth' =>
      performAll_spares (callback event u) (ih event u) hu hdepth'
    rw [perform]
    refine settling_spares (atSpot_spares hs fun t d ht hd => ?_)
    cases hv : d.view? with
    | none => exact .refl ht.sound
    | some found =>
      obtain ⟨kind, pos, item⟩ := found
      exact run_spares hcall visitor ht.sound (ht.grows.depth.trans hdepth)
        (hd item (Datum.object?_of_view? hv).1)

/-! ## One change -/

/-- A session in which the notes beside a sequence are replaced. -/
def withNotes (s : Session) (item : Link) (changed : Notes) : Session :=
  { s with heap := s.heap.modify item.mark fun o => { o with notes := changed } }

theorem exec_edit (s : Session) (item : Link) (e : Edit) :
    s.exec (edit item e) =
      match (s.notes item).edit item.extent.count e with
      | .ok changed => (.ok (), s.withNotes item changed)
      | .error fault => (.error fault, s) := by
  unfold edit annotate
  rw [exec_bind_ok s (exec_get s), exec_bind, exec_ofExcept]
  beta_reduce
  cases (s.notes item).edit item.extent.count e <;> rfl

/-- The changes that are made are the assignments to free keys. -/
theorem edit_made_iff (s : Session) (item : Link) (e : Edit) :
    (s.exec (edit item e)).1 = .ok () ↔
      ∃ key value, e.Assigns key value ∧ key.Free item.extent.count := by
  rw [exec_edit]
  cases he : (s.notes item).edit item.extent.count e with
  | error fault =>
    refine ⟨fun h => (by cases h), ?_⟩
    rintro ⟨key, value, hassigns, hfree⟩
    rw [(Notes.edit_of_assigns hassigns).mpr ⟨hfree, rfl⟩] at he
    cases he
  | ok changed =>
    obtain ⟨key, value, hassigns, hfree, _⟩ := Notes.edit_eq_ok_iff.mp he
    exact ⟨fun _ => ⟨key, value, hassigns, hfree⟩, fun _ => rfl⟩

theorem get?_withNotes (s : Session) (item : Link) (changed : Notes) (serial : Nat) :
    (s.withNotes item changed).heap.get? serial =
      if item.mark = serial then (s.heap.get? serial).map fun o => { o with notes := changed }
      else s.heap.get? serial := Heap.get?_modify ..

theorem live_edit (hi : s.heap.Live link) (item : Link) (e : Edit) :
    (s.exec (edit item e)).2.heap.Live link := by
  rw [exec_edit]
  cases (s.notes item).edit item.extent.count e with
  | error fault => exact hi
  | ok changed =>
    change (s.heap.modify item.mark fun o => { o with notes := changed }).Live link
    refine (Heap.live_modify ?_).mpr hi
    exact fun _ => ⟨rfl, rfl⟩

/-- What is asked of objects other than their notes does not see a change of notes. -/
theorem map_get?_withNotes {β : Type} (s : Session) (item : Link) (changed : Notes)
    (f : Object → β) (hf : ∀ o, f { o with notes := changed } = f o) (serial : Nat) :
    ((s.withNotes item changed).heap.get? serial).map f = (s.heap.get? serial).map f := by
  rw [get?_withNotes]
  split
  · rw [Option.map_map]
    exact congrArg (fun g => (s.heap.get? serial).map g) (funext hf)
  · rfl

theorem find?_withNotes (s : Session) (item : Link) (changed : Notes) (place : Place) :
    (s.withNotes item changed).heap.find? place = s.heap.find? place := by
  have hsome : ∀ serial, ((s.withNotes item changed).heap.get? serial).isSome =
      (s.heap.get? serial).isSome := by
    intro serial
    have hmap := s.map_get?_withNotes item changed (fun _ => ()) (fun _ => rfl) serial
    rw [← Option.isSome_map, hmap, Option.isSome_map]
  unfold Heap.find?
  simp only [hsome]
  rfl

theorem openPlace_withNotes (s : Session) (item : Link) (changed : Notes) (place : Place) :
    ((s.withNotes item changed).exec (openPlace place)).1 = (s.exec (openPlace place)).1 := by
  have hextent := s.map_get?_withNotes item changed Object.extent fun _ => rfl
  have hfind := s.find?_withNotes item changed place
  have hdocument : (s.withNotes item changed).document = s.document := rfl
  have hnext : (s.withNotes item changed).heap.constructed = s.heap.constructed :=
    Heap.constructed_modify ..
  cases hf : s.heap.find? place with
  | none =>
    rw [openPlace_of_absent hf, openPlace_of_absent (hfind.trans hf), hdocument]
    cases s.document.extent place with
    | error fault => rfl
    | ok extent => simp only [hnext]
  | some serial =>
    unfold openPlace
    rw [exec_bind_ok _ (exec_get _), exec_bind_ok _ (exec_get _)]
    simp only [hfind, hf, exec_pure, hextent]

theorem decode_withNotes (s : Session) (item : Link) (changed : Notes) (field : String)
    (layout : Layout) (pos : Nat) :
    ((s.withNotes item changed).exec (decode field layout pos)).1 =
      (s.exec (decode field layout pos)).1 := by
  have hdocument : (s.withNotes item changed).document = s.document := rfl
  rw [exec_decode, exec_decode, hdocument]
  cases s.document.locate field layout pos with
  | error fault => rfl
  | ok d =>
    simp only
    cases d.object? with
    | none => rfl
    | some place =>
      have hopen := s.openPlace_withNotes item changed place
      simp only
      generalize (s.withNotes item changed).exec (openPlace place) = r at hopen
      generalize s.exec (openPlace place) = r' at hopen
      obtain ⟨r, t⟩ := r
      obtain ⟨r', t'⟩ := r'
      cases hopen
      cases r <;> rfl

/-- A change of notes does not show in what a slot gives. -/
theorem slot_withNotes (s : Session) (item : Link) (changed : Notes) (link : Link) (index : Nat) :
    ((s.withNotes item changed).exec (slot link index)).1 = (s.exec (slot link index)).1 := by
  have hslot : (s.withNotes item changed).heap.slot? link.mark index =
      s.heap.slot? link.mark index := by
    unfold Heap.slot?
    rw [get?_withNotes]
    split
    · rw [Option.bind_map]
      rfl
    · rfl
  cases hkept : s.heap.slot? link.mark index with
  | some d => rw [slot_of_kept hkept, slot_of_kept (hslot.trans hkept)]
  | none =>
    have hdocument : (s.withNotes item changed).document = s.document := rfl
    rw [slot_of_empty hkept, slot_of_empty (hslot.trans hkept), hdocument]
    cases s.document.slot? link index with
    | none => rfl
    | some r =>
      have hdecode := s.decode_withNotes item changed r.field r.layout r.pos
      simp only
      generalize (s.withNotes item changed).exec (decode r.field r.layout r.pos) = x at hdecode
      generalize s.exec (decode r.field r.layout r.pos) = y at hdecode
      obtain ⟨x, t⟩ := x
      obtain ⟨y, t'⟩ := y
      cases hdecode
      cases x <;> rfl

theorem get?_outcome (s : Session) (item : Link) (index : Nat) :
    (s.exec ((elements item).get? index)).1 =
      if index < item.extent.count then (s.exec (slot item index)).1.map some else .ok none := by
  unfold Elements.get?
  change (s.exec (if index < item.extent.count then some <$> slot item index else pure none)).1 = _
  split
  · rw [exec_map]
  · rfl

/-- A change does not show in what an element is read as. -/
theorem get?_edit (s : Session) (item : Link) (e : Edit) (index : Nat) :
    ((s.exec (edit item e)).2.exec ((elements item).get? index)).1 =
      (s.exec ((elements item).get? index)).1 := by
  rw [exec_edit]
  cases (s.notes item).edit item.extent.count e with
  | error fault => rfl
  | ok changed => rw [get?_outcome, get?_outcome, slot_withNotes]

/-- An element is what the document has there. -/
theorem get?_eq_document (hs : s.Sound) (hi : s.heap.Live item) (index : Nat) :
    (s.exec ((elements item).get? index)).1.map (Option.map Datum.erase) =
      (s.document.access.elements item.erase).get? index := by
  have hout := (slot_reading hs hi index).outcome
  rw [get?_outcome]
  change _ = if index < item.extent.count then
    some <$> s.document.access.slot item.erase index else pure none
  split
  · generalize (s.exec (slot item index)).1 = r at hout
    generalize s.document.access.slot item.erase index = y at hout
    cases hout with
    | ok h => exact congrArg (fun d => Except.ok (some d)) h.2
    | error fault => rfl
  · rfl

/-! ## The life of a sequence -/

variable {doc : Document} {log : List (Edit × Except Fault Unit)}

/-- The sessions of a document, with the changes asked of the sequence `item` on the way there and
how each of them ended, the latest first. -/
inductive Uses (doc : Document) (item : Link) :
    List (Edit × Except Fault Unit) → Session → Prop where
  /-- Opened bare. -/
  | bare (token : UInt32) : Uses doc item [] (.start doc token)
  /-- Opened with the root record. -/
  | root {token : UInt32} {pos : Nat} {r : Session} (opened : ofRoot doc token pos = .ok r) :
      Uses doc item [] r
  /-- A change is asked of the sequence. -/
  | edit {log : List (Edit × Except Fault Unit)} {s : Session} (h : Uses doc item log s)
      (live : s.heap.Live item) (e : Edit) :
      Uses doc item ((e, (s.exec (edit item e)).1) :: log) (s.exec (Session.edit item e)).2
  /-- A change is asked of another sequence. -/
  | other {log : List (Edit × Except Fault Unit)} {s : Session} (h : Uses doc item log s)
      {link : Link} (apart : link.mark ≠ item.mark) (e : Edit) :
      Uses doc item log (s.exec (Session.edit link e)).2
  /-- Something is read, held or let go, or a visitor is run that only reads. -/
  | read {log : List (Edit × Except Fault Unit)} {s : Session} (h : Uses doc item log s)
      {op : Operation} (reads : op.IsRead) : Uses doc item log ((perform op).run s).2
  /-- A run of a visitor begins, whose callbacks may ask for changes. -/
  | hold {log : List (Edit × Except Fault Unit)} {s t : Session} (h : Uses doc item log s)
      {spot : Spot} {held d : Datum Link} {kind : ViewKind} {pos : Nat} {link : Link}
      (handle : s.handle? spot.handle = some held)
      (found : s.exec (follow held spot.path) = (.ok (some d), t))
      (view : d.view? = some (kind, pos, link)) : Uses doc item log ((pin link.mark).run t).2
  /-- A run enters a node. -/
  | enter {log : List (Edit × Except Fault Unit)} {s t : Session} (h : Uses doc item log s)
      {event : Event} {link : Link} (opened : (openNode event).run s = (some link, t)) :
      Uses doc item log ((pin link.mark).run t).2
  /-- A run leaves a node, or is over. -/
  | leave {log : List (Edit × Except Fault Unit)} {s : Session} (h : Uses doc item log s) :
      Uses doc item log (unpin.run s).2

/-- The notes of a sequence are accounted for by the changes asked of it. -/
structure Accounted (item : Link) (log : List (Edit × Except Fault Unit)) (s : Session) :
    Prop where
  /-- Nothing is asked of a sequence that is not there yet. -/
  early : s.heap.constructed ≤ item.mark → log = []
  proper : ∀ {o}, s.heap.get? item.mark = some o → Notes.Proper item.extent.count o.notes
  last : ∀ {o}, s.heap.get? item.mark = some o → ∀ key value,
    o.notes.get? key = some value ↔ Notes.LastAssigned key value log

theorem accounted_nil {o : Object} (hnotes : o.notes = []) (count : Nat) :
    Notes.Proper count o.notes ∧
      ∀ key value, o.notes.get? key = some value ↔ Notes.LastAssigned key value [] := by
  rw [hnotes]
  refine ⟨.nil count, fun key value => ⟨fun h => ?_, fun h => ?_⟩⟩ <;> cases h

theorem Accounted.spares (h : Accounted item log s) (hkept : s.NotesKept t) :
    Accounted item log t := by
  refine ⟨fun hle => h.early (hkept.constructed.trans hle), fun {o} hget => ?_,
    fun {o} hget => ?_⟩ <;> by_cases hlt : item.mark < s.heap.constructed
  · obtain ⟨p, hp, hnotes⟩ := hkept.kept hlt hget
    rw [hnotes]
    exact h.proper hp
  · exact (accounted_nil (hkept.fresh (Nat.le_of_not_lt hlt) hget) _).1
  · obtain ⟨p, hp, hnotes⟩ := hkept.kept hlt hget
    rw [hnotes]
    exact h.last hp
  · rw [h.early (Nat.le_of_not_lt hlt)]
    exact (accounted_nil (hkept.fresh (Nat.le_of_not_lt hlt) hget) 0).2

theorem Accounted.edit (h : Accounted item log s) (hi : s.heap.Live item) (e : Edit) :
    Accounted item ((e, (s.exec (edit item e)).1) :: log) (s.exec (Session.edit item e)).2 := by
  obtain ⟨o, hget, _⟩ := hi
  have hnotes : s.notes item = o.notes := by
    unfold Session.notes
    rw [hget]
    rfl
  have hbuilt := Heap.get?_lt hget
  rw [exec_edit, hnotes]
  cases he : o.notes.edit item.extent.count e with
  | error fault =>
    refine ⟨fun hle => absurd hbuilt (Nat.not_lt.mpr hle), h.proper, fun {p} hp key value => ?_⟩
    rw [Notes.lastAssigned_refused]
    exact h.last hp key value
  | ok changed =>
    have hafter : (s.withNotes item changed).heap.get? item.mark =
        some { o with notes := changed } := by
      rw [get?_withNotes, if_pos rfl, hget]
      rfl
    refine ⟨fun hle => ?_, fun {p} hp => ?_, fun {p} hp key value => ?_⟩
    · exact absurd (Heap.get?_lt hafter) (Nat.not_lt.mpr hle)
    · obtain rfl := Option.some.inj (hafter.symm.trans hp)
      exact (h.proper hget).edit he
    · obtain rfl := Option.some.inj (hafter.symm.trans hp)
      exact Notes.get?_edit_iff he (h.last hget key value)

theorem Accounted.other (h : Accounted item log s) (apart : link.mark ≠ item.mark) (e : Edit) :
    Accounted item log (s.exec (Session.edit link e)).2 := by
  rw [exec_edit]
  cases (s.notes link).edit link.extent.count e with
  | error fault => exact h
  | ok changed =>
    have hget : (s.withNotes link changed).heap.get? item.mark = s.heap.get? item.mark := by
      rw [get?_withNotes, if_neg apart]
    refine ⟨fun hle => h.early ?_, fun {p} hp => ?_, fun {p} hp => ?_⟩
    · exact (Heap.constructed_modify ..).symm.le.trans hle
    · exact h.proper (hget ▸ hp)
    · exact h.last (hget ▸ hp)

theorem ofRoot_notesKept {token : UInt32} {pos : Nat} (h : ofRoot doc token pos = .ok s) :
    (start doc token).NotesKept s := by
  have hreads := (decode_holds (.start doc token) "root" (.record .root) pos).reads
  have h : (match (start doc token).exec (decode "root" (.record .root) pos) with
    | (result, t) => result.map fun d => t.save rootHandle d) = .ok s := h
  generalize (start doc token).exec (decode "root" (.record .root) pos) = r at h hreads
  obtain ⟨r, t⟩ := r
  cases r with
  | error fault => cases h
  | ok d =>
    cases h
    exact hreads.notes.trans (.of_heap rfl)

theorem Accounted.start (item : Link) (token : UInt32) :
    Accounted item [] (.start doc token) := by
  have hempty : (Session.start doc token).heap.get? item.mark = none := Heap.get?_empty _
  refine ⟨fun _ => rfl, fun {o} hget => ?_, fun {o} hget => ?_⟩ <;>
  · rw [hempty] at hget
    cases hget

/-- One step at a time: a session in use is in order, and the notes are accounted for. -/
theorem Uses.accounted (h : Uses doc item log s) :
    s.document = doc ∧ s.Sound ∧ s.depth = 0 ∧ Accounted item log s := by
  -- a step that leaves notes alone
  have hspares : ∀ {log : List (Edit × Except Fault Unit)} {s t : Session},
      s.document = doc ∧ s.Sound ∧ s.depth = 0 ∧ Accounted item log s → s.Spares t →
      t.document = doc ∧ t.Sound ∧ t.depth = 0 ∧ Accounted item log t := by
    rintro log s t ⟨hdoc, _, hdepth, haccounted⟩ hst
    exact ⟨hst.document.trans hdoc, hst.sound, hst.depth.trans hdepth,
      haccounted.spares hst.notes⟩
  induction h with
  | bare token => exact ⟨rfl, .start doc token, rfl, .start item token⟩
  | root opened =>
    obtain ⟨hdoc, hs, hdepth⟩ := ofRoot_sound opened
    exact ⟨hdoc, hs, hdepth, (Accounted.start item _).spares (ofRoot_notesKept opened)⟩
  | edit _ live e ih =>
    obtain ⟨hdoc, hs, hdepth, haccounted⟩ := ih
    have hsteps := annotate_steps hs item fun notes => notes.edit item.extent.count e
    exact ⟨hsteps.document.trans hdoc, hsteps.sound, hsteps.depth.trans hdepth,
      haccounted.edit live e⟩
  | @other log s _ link apart e ih =>
    obtain ⟨hdoc, hs, hdepth, haccounted⟩ := ih
    have hsteps := annotate_steps hs link fun notes => notes.edit link.extent.count e
    exact ⟨hsteps.document.trans hdoc, hsteps.sound, hsteps.depth.trans hdepth,
      haccounted.other apart e⟩
  | read _ reads ih => exact hspares ih (perform_spares reads ih.2.1 ih.2.2.1)
  | @hold log s t _ spot held d kind pos link handle found view ih =>
    obtain ⟨hreads, hd⟩ := follow_live ih.2.1 handle found
    have hpin := pin_spares hreads.sound (hd link (Datum.object?_of_view? view).1)
    exact hspares ih (hreads.spares.trans hpin)
  | @enter log s t _ event link opened ih =>
    obtain ⟨hreads, hi, _⟩ := openNode_reads ih.2.1 opened
    exact hspares ih (hreads.spares.trans (pin_spares hreads.sound hi))
  | leave _ ih => exact hspares ih (unpin_spares ih.2.1)

/-- A sequence, after the changes in `log` were asked of it, the latest first. -/
structure SequenceState (doc : Document) (item : Link) (log : List (Edit × Except Fault Unit))
    (s : Session) : Prop where
  /-- The length is what the buffer says. -/
  length : doc.extent item.place = .ok item.extent
  /-- Whoever asks for the sequence again gets it, with the same length. -/
  found : s.exec (openPlace item.place) = (.ok item, s)
  /-- Every element is what the buffer says. -/
  elements : ∀ index, (s.exec ((elements item).get? index)).1.map (Option.map Datum.erase) =
    (doc.access.elements item.erase).get? index
  /-- No change shows in what an element is read as. -/
  unmoved : ∀ e index, ((s.exec (edit item e)).2.exec ((Session.elements item).get? index)).1 =
    (s.exec ((Session.elements item).get? index)).1
  /-- A change that is refused leaves everything as it was. -/
  refused : ∀ {e fault t}, s.exec (edit item e) = (.error fault, t) → t = s
  /-- The changes that are made are the assignments to free keys. -/
  made : ∀ e, (s.exec (edit item e)).1 = .ok () ↔
    ∃ key value, e.Assigns key value ∧ key.Free item.extent.count
  /-- Values are stored under free keys only. -/
  stored : ∀ entry ∈ s.notes item, entry.1.Free item.extent.count
  /-- Under a key is the value that was assigned to it last. -/
  last : ∀ key value,
    (s.notes item).get? key = some value ↔ Notes.LastAssigned key value log
  /-- The keys are listed in order. -/
  listing : ∃ indices names, (s.notes item).Listing item.extent.count indices names
  /-- No key is listed twice. -/
  keys : ((s.notes item).keys item.extent.count).Nodup
  /-- No two keys have one text. -/
  texts : (((s.notes item).keys item.extent.count).map SequenceKey.text).Nodup
  /-- The keys with permissions are those listed. -/
  described : ∀ key, ((s.notes item).permissions? item.extent.count key).isSome ↔
    key ∈ (s.notes item).keys item.extent.count
  /-- The writable keys are those with a note. -/
  writable : ∀ key,
    (∃ p, (s.notes item).permissions? item.extent.count key = some p ∧ p.writable = true) ↔
      ((s.notes item).get? key).isSome

/-- Whatever is done with a sequence, it keeps its length and elements, and what is noted beside it
is what the changes that were made have left. -/
theorem sequenceState_of_uses {element : Layout} {pos : Nat} (h : Uses doc item log s)
    (hi : s.heap.Live item) (hplace : item.place = .sequence element pos) :
    SequenceState doc item log s := by
  obtain ⟨hdoc, hs, _, haccounted⟩ := h.accounted
  obtain ⟨o, hget, hp, he⟩ := id hi
  have hnotes : s.notes item = o.notes := by
    unfold notes
    rw [hget]
    rfl
  have hproper := haccounted.proper hget
  rw [← hnotes] at hproper
  have hextent : doc.extent item.place = .ok item.extent := by
    rw [← hdoc, ← hp, ← he]
    exact hs.heap.opened hget
  have hcount : item.extent.count ≤ longModulus := by
    have hlt := Document.count_lt (hplace ▸ hextent)
    exact hlt.le.trans (by decide)
  constructor
  · exact hextent
  · exact openPlace_of_live hs hi
  · intro index
    rw [get?_eq_document hs hi, hdoc]
  · exact s.get?_edit item
  · intro e fault t ht
    rw [exec_edit] at ht
    split at ht <;> cases ht
    rfl
  · exact fun e => edit_made_iff s item e
  · exact hproper.free
  · rw [hnotes]
    exact haccounted.last hget
  · exact ⟨_, _, hproper.listing⟩
  · exact hproper.nodup_keys
  · exact hproper.nodup_texts hcount
  · exact fun _ => hproper.isSome_permissions?_iff
  · exact fun _ => hproper.writable_iff

/-! ## An example -/

/-- A sequence of two numbers at the start of a buffer, and the numbers behind its header. -/
def twoNumbers : Document := .ofWords [16, 0, 2, 0, 7, 9] {}

/-- The sequence. -/
def numbers : Link := ⟨.sequence .word 0, ⟨16, 2⟩, 0⟩

/-- A session that holds the sequence. -/
def holdingNumbers : Session :=
  ((perform (.decode "elements" (.sequence .word) 0 (some "a"))).run (.start twoNumbers 1)).2

theorem numbers_live : holdingNumbers.heap.Live numbers := by
  have hsound : holdingNumbers.Sound :=
    (perform_steps (.decode "elements" (.sequence .word) 0 (some "a")) (.start twoNumbers 1)
      rfl).sound
  have hhandles : holdingNumbers.handles = [("a", .object numbers)] := by
    unfold holdingNumbers
    rw [perform]
    rfl
  exact hsound.handles ("a", .object numbers) (by rw [hhandles]; exact List.mem_cons_self)
    numbers rfl

/-- The sequence after an assignment past its end, which is made, and two that are refused: one to an
element, and one that would add an element. -/
theorem sequenceState_of_assignments :
    SequenceState twoNumbers numbers
      [(.push .null, .error (.immutableSequence .push)),
        (.set 1 .null, .error (.immutableSequence (.set 1))), (.setNamed "5" .null, .ok ())]
      (((holdingNumbers.exec (edit numbers (.setNamed "5" .null))).2.exec
        (edit numbers (.set 1 .null))).2.exec (edit numbers (.push .null))).2 := by
  have hheld : Uses twoNumbers numbers [] holdingNumbers := .read (.bare 1) (.decode ..)
  have hassigned := hheld.edit numbers_live (.setNamed "5" .null)
  have hmade : (holdingNumbers.exec (edit numbers (.setNamed "5" .null))).1 = .ok () :=
    (edit_made_iff ..).mpr ⟨_, _, .text 5 .null, .past (by decide) (by decide)⟩
  rw [hmade] at hassigned
  have hlive := live_edit numbers_live numbers (.setNamed "5" .null)
  have hrefused := hassigned.edit hlive (.set 1 .null)
  have hlive' := live_edit hlive numbers (.set 1 .null)
  exact sequenceState_of_uses (hrefused.edit hlive' (.push .null)) (live_edit hlive' ..) rfl

end Session

end FlatSyntax
