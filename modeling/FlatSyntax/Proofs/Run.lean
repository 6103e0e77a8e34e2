import Mathlib
import FlatSyntax.Proofs.SessionProjection
import FlatSyntax.Proofs.Walk
import FlatSyntax.Session.Run

/-!
# Running a visitor

A run replays the events of a walk over the document. As the events are nested and the walk has
checked the bytes of the nodes, every view is opened, every callback gets the view of the node it is
called for, and what the run held it lets go of. So the calls of a run are the events of the walk,
each with the keys registered for it, whatever the callbacks do to the session meanwhile.
-/

namespace FlatSyntax

/-- The calls for events, in order, with what each callback sees. -/
def Plan.calls {α : Type} (plan : Plan) (sight : Event → α) (events : List Event) :
    List (Call α) :=
  events.flatMap fun event =>
    (plan.callbacks event.phase event.kind).map fun key => ⟨key, event, sight event⟩

namespace Session

variable {s t u : Session} {item : Link}

/-! ## Passing from a session to another -/

/-- A session got from `s` to `t` by reading, holding and letting go. -/
structure Passes (s t : Session) : Prop where
  document : t.document = s.document
  token : t.token = s.token
  depth : t.depth = s.depth
  sound : t.Sound
  course : ∃ n, Course s n t

/-- The same, and what walks hold is as before. -/
structure Steps (s t : Session) : Prop extends Passes s t where
  pins : t.pins = s.pins

theorem Passes.refl (hs : s.Sound) : s.Passes s := ⟨rfl, rfl, rfl, hs, 0, .refl s⟩

theorem Passes.trans (h : s.Passes t) (h' : t.Passes u) : s.Passes u := by
  obtain ⟨m, hm⟩ := h.course
  obtain ⟨n, hn⟩ := h'.course
  exact ⟨h'.document.trans h.document, h'.token.trans h.token, h'.depth.trans h.depth, h'.sound,
    m + n, hm.trans hn⟩

theorem Steps.refl (hs : s.Sound) : s.Steps s := ⟨.refl hs, rfl⟩

theorem Steps.trans (h : s.Steps t) (h' : t.Steps u) : s.Steps u :=
  ⟨h.toPasses.trans h'.toPasses, h'.pins.trans h.pins⟩

theorem Reads.steps (h : s.Reads t) : s.Steps t :=
  ⟨⟨h.grows.document, h.grows.token, h.grows.depth, h.sound, h.course⟩, h.grows.pins⟩

theorem Passes.of_quiet (hquiet : s.Quiet t) (ht : t.Sound) (htoken : t.token = s.token)
    (hdepth : t.depth = s.depth) : s.Passes t :=
  ⟨hquiet.document, htoken, hdepth, ht, 0, .quiet hquiet (.refl t)⟩

/-- An object that was live and that a walk holds is still live. -/
theorem Passes.live (h : s.Passes t) (hi : s.heap.Live item) (hp : item.mark ∈ t.pins) :
    t.heap.Live item := by
  obtain ⟨o', ho'⟩ := h.sound.pins _ hp
  obtain ⟨n, hn⟩ := h.course
  obtain ⟨o, ho, hplace, hextent⟩ := hi
  obtain ⟨p, hp, hk⟩ := hn.kept (Heap.get?_lt ho) ho'
  have hop : o = p := Option.some.inj (ho.symm.trans hp)
  subst hop
  exact ⟨o', ho', hk.1.trans hplace, hk.2.1.trans hextent⟩

theorem Quiet.of_heap (hdoc : t.document = s.document) (hheap : t.heap = s.heap) : s.Quiet t := by
  refine ⟨hdoc, by rw [hheap], fun serial o hget => ⟨o, ?_, .refl o⟩⟩
  rwa [hheap] at hget

theorem collect_passes (hs : s.Sound) : s.Passes s.collect := by
  refine .of_quiet ⟨rfl, Heap.constructed_collect .., fun serial o hget => ?_⟩ hs.collect rfl rfl
  exact ⟨o, Heap.get?_of_collect hget, .refl o⟩

theorem collect_steps (hs : s.Sound) : s.Steps s.collect := ⟨collect_passes hs, rfl⟩

/-! ## Holding and letting go -/

theorem run_bind {α β : Type} (x : StateM Session α) (f : α → StateM Session β) (s : Session) :
    (x >>= f).run s = (f (x.run s).1).run (x.run s).2 := rfl

theorem pin_passes (hs : s.Sound) (hi : s.heap.Live item) :
    s.Passes ((pin item.mark).run s).2 := by
  refine .of_quiet (.of_heap rfl rfl) ⟨hs.heap, hs.handles, fun serial hserial => ?_⟩ rfl rfl
  rcases List.mem_cons.mp hserial with rfl | hserial
  · obtain ⟨o, ho, _⟩ := hi
    exact ⟨o, ho⟩
  · exact hs.pins serial hserial

theorem unpin_passes (hs : s.Sound) :
    s.Passes (unpin.run s).2 ∧ (unpin.run s).2.pins = s.pins.drop 1 := by
  set t : Session := { s with pins := s.pins.drop 1 } with ht
  have hsound : t.Sound :=
    ⟨hs.heap, hs.handles, fun serial hserial => hs.pins serial (List.mem_of_mem_drop hserial)⟩
  have hpass : s.Passes t := .of_quiet (.of_heap rfl rfl) hsound rfl rfl
  exact ⟨hpass.trans (collect_passes hsound), rfl⟩

/-- A walk that ends lets go of everything it is inside of. -/
theorem unpin_all (hs : s.Sound) (inside : List Link) :
    s.Passes ((inside.forM fun _ => unpin).run s).2 ∧
      ((inside.forM fun _ => unpin).run s).2.pins = s.pins.drop inside.length := by
  induction inside generalizing s with
  | nil => exact ⟨.refl hs, rfl⟩
  | cons item rest ih =>
    obtain ⟨hpass, hpins⟩ := unpin_passes hs
    obtain ⟨hpass', hpins'⟩ := ih hpass.sound
    rw [hpins, List.drop_drop] at hpins'
    exact ⟨hpass.trans hpass', by rw [List.length_cons, Nat.add_comm]; exact hpins'⟩

theorem openNode_eq (s : Session) (event : Event) :
    (openNode event).run s =
      ((s.exec (openPlace (.view (.node event.kind) event.pos))).1.toOption,
        (s.exec (openPlace (.view (.node event.kind) event.pos))).2) := by
  have hrun : (openPlace (.view (.node event.kind) event.pos)).run.run s =
      s.exec (openPlace (.view (.node event.kind) event.pos)) := rfl
  unfold openNode
  rw [run_bind, hrun]
  generalize s.exec (openPlace (.view (.node event.kind) event.pos)) = out
  obtain ⟨r, t⟩ := out
  cases r <;> rfl

theorem openNode_reads (hs : s.Sound) {event : Event}
    (h : (openNode event).run s = (some item, t)) :
    s.Reads t ∧ t.heap.Live item ∧ item.place = .view (.node event.kind) event.pos := by
  obtain ⟨hreads, hout⟩ := openPlace_reading hs (.view (.node event.kind) event.pos)
  rw [openNode_eq] at h
  generalize s.exec (openPlace (.view (.node event.kind) event.pos)) = r at hreads hout h
  obtain ⟨r, u⟩ := r
  cases r with
  | error f => cases h
  | ok other =>
    cases h
    unfold Document.openPlace at hout
    cases hext : s.document.extent (.view (.node event.kind) event.pos) with
    | error f =>
      rw [hext] at hout
      cases hout
    | ok extent =>
      rw [hext] at hout
      cases hout with
      | ok h =>
        refine ⟨hreads, h.1, ?_⟩
        exact congrArg Item.place h.2

/-- A walk has checked the bytes of a node it enters, so its view is opened. -/
theorem openNode_run (hs : s.Sound) (event : Event)
    (checked : s.document.check event.pos (ViewKind.node event.kind).size = .ok ()) :
    ∃ item t, (openNode event).run s = (some item, t) := by
  have hout := (openPlace_reading hs (.view (.node event.kind) event.pos)).outcome
  have hrun := openNode_eq s event
  simp only [Document.openPlace, Document.extent, checked] at hout
  generalize s.exec (openPlace (.view (.node event.kind) event.pos)) = r at hout hrun
  obtain ⟨r, t⟩ := r
  cases hout with
  | @ok item _ h => exact ⟨item, t, hrun⟩

/-! ## Replaying events -/

variable {α : Type} {doc : Document} {plan : Plan} {callback : Event → Link → StateM Session α}
  {sight : Event → α}

/-- What a run asks of a callback: given the view of the node of an event, it sees what `sight`
says, and leaves the session in order. -/
def Answers (doc : Document) (callback : Event → Link → StateM Session α) (sight : Event → α) :
    Prop :=
  ∀ s event item, s.Sound → s.document = doc → s.depth = 0 → s.heap.Live item →
    item.place = .view (.node event.kind) event.pos →
      s.Steps ((callback event item).run s).2 ∧ ((callback event item).run s).1 = sight event

/-- The callbacks for one event. -/
theorem callAll_run (plan : Plan) (hcall : Answers doc callback sight) (event : Event)
    (hs : s.Sound) (hdoc : s.document = doc) (hdepth : s.depth = 0) (hi : s.heap.Live item)
    (hpin : item.mark ∈ s.pins) (hplace : item.place = .view (.node event.kind) event.pos) :
    s.Steps ((callAll plan callback event item).run s).2 ∧
      ((callAll plan callback event item).run s).1 = plan.calls sight [event] := by
  unfold callAll Plan.calls
  rw [List.flatMap_singleton]
  generalize plan.callbacks event.phase event.kind = keys
  induction keys generalizing s with
  | nil => exact ⟨.refl hs, rfl⟩
  | cons key rest ih =>
    obtain ⟨hsteps, hseen⟩ := hcall s event item hs hdoc hdepth hi hplace
    set t := ((callback event item).run s).2 with ht
    have hlive : t.heap.Live item := hsteps.live hi (by rw [hsteps.pins]; exact hpin)
    obtain ⟨hrest, hcalls⟩ := ih hsteps.sound (hsteps.document.trans hdoc)
      (hsteps.depth.trans hdepth) hlive (by rw [hsteps.pins]; exact hpin)
    rw [List.mapM_cons, run_bind]
    refine ⟨hsteps.trans hrest, ?_⟩
    rw [List.map_cons, ← hcalls, ← hseen]
    rfl

theorem replay_enter (inside : List Link) (kind : NodeKind) (pos : Nat) (rest : List Event) :
    replay plan callback inside (⟨.enter, kind, pos⟩ :: rest) = (do
      match ← openNode ⟨.enter, kind, pos⟩ with
      | some item =>
        pin item.mark
        let calls ← callAll plan callback ⟨.enter, kind, pos⟩ item
        return calls ++ (← replay plan callback (item :: inside) rest)
      | none => replay plan callback inside rest) := rfl

theorem replay_exit (item : Link) (outer : List Link) (kind : NodeKind) (pos : Nat)
    (rest : List Event) :
    replay plan callback (item :: outer) (⟨.exit, kind, pos⟩ :: rest) = (do
      let calls ← callAll plan callback ⟨.exit, kind, pos⟩ item
      unpin
      return calls ++ (← replay plan callback outer rest)) := rfl

/-- A walk is inside of nodes: it holds their views, innermost first, on top of what was held
before. -/
structure Inside (doc : Document) (inside : List Link) (base : List Nat) (s : Session) : Prop where
  sound : s.Sound
  document : s.document = doc
  depth : s.depth = 0
  pins : s.pins = inside.map Item.mark ++ base
  live : ∀ item ∈ inside, s.heap.Live item

variable {inside outer : List Link} {base : List Nat}

/-- What the walk is inside of is held, so it is live after anything that does not let go of it. -/
theorem Inside.steps (h : Inside doc inside base s) (hsteps : s.Steps t) :
    Inside doc inside base t where
  sound := hsteps.sound
  document := hsteps.document.trans h.document
  depth := hsteps.depth.trans h.depth
  pins := hsteps.pins.trans h.pins
  live item hitem := by
    refine hsteps.live (h.live item hitem) ?_
    rw [hsteps.pins, h.pins]
    exact List.mem_append_left _ (List.mem_map_of_mem hitem)

theorem Inside.enter (h : Inside doc inside base s) (event : Event)
    (checked : doc.check event.pos (ViewKind.node event.kind).size = .ok ()) :
    ∃ item t, (openNode event).run s = (some item, t) ∧
      item.place = .view (.node event.kind) event.pos ∧ s.Passes ((pin item.mark).run t).2 ∧
        Inside doc (item :: inside) base ((pin item.mark).run t).2 := by
  obtain ⟨item, t, hopen⟩ := openNode_run h.sound event (by rw [h.document]; exact checked)
  obtain ⟨hreads, hi, hplace⟩ := openNode_reads h.sound hopen
  have hpass := pin_passes hreads.sound hi
  refine ⟨item, t, hopen, hplace, hreads.steps.toPasses.trans hpass, hpass.sound,
    hreads.grows.document.trans h.document, hreads.grows.depth.trans h.depth, ?_, ?_⟩
  · change item.mark :: t.pins = _
    rw [hreads.grows.pins, h.pins]
    rfl
  · intro other hother
    rcases List.mem_cons.mp hother with rfl | hother
    · exact hi
    · exact hreads.grows.live other (h.live other hother)

theorem Inside.leave (h : Inside doc (item :: outer) base s) :
    s.Passes (unpin.run s).2 ∧ Inside doc outer base (unpin.run s).2 := by
  obtain ⟨hpass, hdrop⟩ := unpin_passes h.sound
  have hpins : (unpin.run s).2.pins = outer.map Item.mark ++ base := by
    rw [hdrop, h.pins]
    rfl
  refine ⟨hpass, hpass.sound, hpass.document.trans h.document, hpass.depth.trans h.depth, hpins, ?_⟩
  intro other hother
  refine hpass.live (h.live other (List.mem_cons_of_mem item hother)) ?_
  rw [hpins]
  exact List.mem_append_left _ (List.mem_map_of_mem hother)

/-- The callbacks for the innermost node. -/
theorem Inside.callAll (h : Inside doc (item :: outer) base s) (plan : Plan)
    (hcall : Answers doc callback sight) (event : Event)
    (hplace : item.place = .view (.node event.kind) event.pos) :
    s.Passes ((callAll plan callback event item).run s).2 ∧
      Inside doc (item :: outer) base ((Session.callAll plan callback event item).run s).2 ∧
        ((Session.callAll plan callback event item).run s).1 = plan.calls sight [event] := by
  obtain ⟨hsteps, hcalls⟩ := callAll_run plan hcall event h.sound h.document h.depth
    (h.live item List.mem_cons_self) (by rw [h.pins]; simp) hplace
  exact ⟨hsteps.toPasses, h.steps hsteps, hcalls⟩

/-- Nested events are all called for, and what the walk is inside of is let go of in the end. -/
theorem replay_run (plan : Plan) (hcall : Answers doc callback sight) {places : List Place}
    {events : List Event} (hn : Nested doc places events) (hplaces : inside.map Item.place = places)
    (h : Inside doc inside base s) :
    s.Passes ((replay plan callback inside events).run s).2 ∧
      ((replay plan callback inside events).run s).2.pins = base ∧
        ((replay plan callback inside events).run s).1 = plan.calls sight events := by
  -- along the nesting of the events: the views held are those of the nodes that are open
  induction hn generalizing inside s with
  | nil places =>
    -- the walk has ended, perhaps in a fault, and is still inside of some nodes
    obtain ⟨hpass, hdrop⟩ := unpin_all h.sound inside
    have hnil : (replay plan callback inside []).run s =
        ([], ((inside.forM fun _ => unpin).run s).2) := by
      unfold replay
      rfl
    rw [hnil]
    refine ⟨hpass, ?_, rfl⟩
    rw [hdrop, h.pins]
    simp
  | @enter places rest kind pos checked _ ih =>
    obtain ⟨item, t, hopen, hplace, hpass, hin⟩ := h.enter ⟨.enter, kind, pos⟩ checked
    set u := ((pin item.mark).run t).2 with hu
    obtain ⟨hpass', hin', hcalls⟩ := hin.callAll plan hcall ⟨.enter, kind, pos⟩ hplace
    set v := ((callAll plan callback ⟨.enter, kind, pos⟩ item).run u).2 with hv
    obtain ⟨hpass'', hbase, hrest⟩ := ih (by rw [List.map_cons, hplace, hplaces]) hin'
    have henter : (replay plan callback inside (⟨.enter, kind, pos⟩ :: rest)).run s =
        (((callAll plan callback ⟨.enter, kind, pos⟩ item).run u).1 ++
            ((replay plan callback (item :: inside) rest).run v).1,
          ((replay plan callback (item :: inside) rest).run v).2) := by
      rw [replay_enter, run_bind, hopen]
      rfl
    rw [henter]
    refine ⟨hpass.trans (hpass'.trans hpass''), hbase, ?_⟩
    rw [hcalls, hrest]
    simp [Plan.calls]
  | @exit places rest kind pos _ ih =>
    cases inside with
    | nil => simp at hplaces
    | cons item outer =>
      obtain ⟨hplace, houter⟩ := List.cons.inj hplaces
      obtain ⟨hpass, hin, hcalls⟩ := h.callAll plan hcall ⟨.exit, kind, pos⟩ hplace
      set t := ((callAll plan callback ⟨.exit, kind, pos⟩ item).run s).2 with ht
      obtain ⟨hpass', hin'⟩ := hin.leave
      obtain ⟨hpass'', hbase, hrest⟩ := ih houter hin'
      have hexit : (replay plan callback (item :: outer) (⟨.exit, kind, pos⟩ :: rest)).run s =
          (((callAll plan callback ⟨.exit, kind, pos⟩ item).run s).1 ++
              ((replay plan callback outer rest).run (unpin.run t).2).1,
            ((replay plan callback outer rest).run (unpin.run t).2).2) := by
        rw [replay_exit]
        rfl
      rw [hexit]
      refine ⟨hpass.trans (hpass'.trans hpass''), hbase, ?_⟩
      rw [hcalls, hrest]
      simp [Plan.calls]

/-- A run replays what its walk over the document records, and holds the view meanwhile. -/
theorem run_eq {kind : ViewKind} {pos : Nat} (hplace : item.place = .view kind pos)
    (visitor : Visitor) (callback : Event → Link → StateM Session α) :
    (run visitor callback item).run s =
      (⟨((replay visitor.plan callback [] (s.document.walk visitor.plan kind pos).events).run
            ((pin item.mark).run s).2).1,
          (s.document.walk visitor.plan kind pos).fault?, (visitor.walk s.document kind pos).2⟩,
        (unpin.run ((replay visitor.plan callback []
          (s.document.walk visitor.plan kind pos).events).run ((pin item.mark).run s).2).2).2) := by
  obtain ⟨hwalk, hplan⟩ := visitor.walk_eq s.document kind pos
  unfold run
  rw [hplace]
  simp only
  rw [run_bind]
  change StateT.run (do
    pin item.mark
    let calls ← replay (visitor.walk s.document kind pos).2.plan callback []
      (visitor.walk s.document kind pos).1.events
    unpin
    return (⟨calls, (visitor.walk s.document kind pos).1.fault?,
      (visitor.walk s.document kind pos).2⟩ : Outcome α)) s = _
  rw [hwalk, hplan]
  rfl

/-- What a run does, from what its walk over the document records. -/
theorem run_run (hcall : Answers s.document callback sight) (hs : s.Sound) (hdepth : s.depth = 0)
    (hi : s.heap.Live item) {kind : ViewKind} {pos : Nat} (hplace : item.place = .view kind pos)
    (visitor : Visitor) :
    s.Steps ((run visitor callback item).run s).2 ∧
      ((run visitor callback item).run s).1.calls =
          visitor.plan.calls sight (s.document.walk visitor.plan kind pos).events ∧
        ((run visitor callback item).run s).1.fault =
          (s.document.walk visitor.plan kind pos).fault? := by
  have hpass := pin_passes hs hi
  set t := ((pin item.mark).run s).2 with ht
  have hin : Inside s.document [] t.pins t :=
    ⟨hpass.sound, hpass.document, hpass.depth.trans hdepth, rfl, by simp⟩
  obtain ⟨hpass', hbase, hcalls⟩ := replay_run visitor.plan hcall
    (s.document.walk_nested visitor.plan kind pos) rfl hin
  set u := ((replay visitor.plan callback []
    (s.document.walk visitor.plan kind pos).events).run t).2 with hu
  obtain ⟨hpass'', hdrop⟩ := unpin_passes hpass'.sound
  rw [run_eq hplace]
  refine ⟨⟨hpass.trans (hpass'.trans hpass''), ?_⟩, hcalls, rfl⟩
  rw [hdrop, hbase]
  rfl

end Session

end FlatSyntax
