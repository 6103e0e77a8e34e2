import Mathlib
import FlatSyntax.Proofs.Reachability
import FlatSyntax.Proofs.Tidy

/-!
# What a run leaves behind

A run of a visitor whose callbacks do nothing to the session leaves it as it was. While it is inside
of nodes it holds their views, and these are all that is new: what was live before is held as
before, has the slots and the notes it had, and so is still there whenever something is let go. As
soon as a node is left, by the walk or because a fault ends it, its view goes if the run has built
it.

What is built meanwhile are views of nodes whose kinds have a key, at most one each time such a node
is entered. Without keys nothing is read at all.
-/

namespace FlatSyntax

/-! ## The nodes that a walk enters -/

/-- Where the node of an event is. -/
def Event.place (event : Event) : Place := .view (.node event.kind) event.pos

/-- The places of the nodes that are entered, in order. -/
def entered (events : List Event) : List Place :=
  events.filterMap fun event =>
    match event.phase with
    | .enter => some event.place
    | .exit => none

@[simp] theorem entered_enter (kind : NodeKind) (pos : Nat) (rest : List Event) :
    entered (⟨.enter, kind, pos⟩ :: rest) = .view (.node kind) pos :: entered rest := rfl

@[simp] theorem entered_exit (kind : NodeKind) (pos : Nat) (rest : List Event) :
    entered (⟨.exit, kind, pos⟩ :: rest) = entered rest := rfl

/-- All events are of kinds with a key. -/
def Trace.Keyed (plan : Plan) (α : Type) (t : Trace α) : Prop :=
  ∀ event ∈ t.events, plan.registered.contains event.kind = true

theorem Trace.Keyed.kept (plan : Plan) : Trace.Kept (Trace.Keyed plan) where
  bind {α β t f} ht hf := by
    obtain ⟨events, result⟩ := t
    cases result with
    | error fault => exact ht
    | ok a =>
      intro event hevent
      rcases List.mem_append.mp hevent with hevent | hevent
      · exact ht event hevent
      · exact hf a event hevent
  read _ := nofun

theorem Walk.announce_keyed (plan : Plan) (phase : Phase) (kind : NodeKind) (pos : Nat) :
    Trace.Keyed plan Unit (announce (.ofPlan plan) phase kind pos) := by
  unfold announce
  split
  · rename_i hkind
    intro event hevent
    cases List.mem_singleton.mp hevent
    exact hkind
  · exact nofun

theorem Walk.node_keyed (doc : Document) (plan : Plan) (depth : Nat) (kind : NodeKind) (pos : Nat) :
    Trace.Keyed plan Unit (node doc (.ofPlan plan) depth kind pos) := by
  have hkept := Trace.Keyed.kept plan
  induction depth generalizing kind pos with
  | zero =>
    by_cases hk : plan.needed.contains kind = true
    · rw [node_zero hk]
      exact hkept.bind nofun fun _ => nofun
    · rw [node_of_not_needed hk]
      exact nofun
  | succ depth ih =>
    by_cases hk : plan.needed.contains kind = true
    · rw [node_succ hk]
      refine hkept.bind nofun fun _ => ?_
      refine hkept.bind (announce_keyed plan .enter kind pos) fun _ => ?_
      refine hkept.bind (hkept.children doc plan (hkept.viewVia doc plan ih) (.node kind) pos)
        fun _ => ?_
      exact announce_keyed plan .exit kind pos
    · rw [node_of_not_needed hk]
      exact nofun

theorem Document.walk_keyed (doc : Document) (plan : Plan) (kind : ViewKind) (pos : Nat) :
    (doc.walk plan kind pos).Keyed plan Unit :=
  (Trace.Keyed.kept plan).viewVia doc plan (Walk.node_keyed doc plan doc.options.maxDepth) kind pos

/-- A needed kind leads to the kind of a key. -/
theorem Plan.leadsTo_of_needed {keys : List VisitorKey} {kind : NodeKind}
    (h : (ofKeys keys).needed.contains kind = true) : ∃ key ∈ keys, kind.LeadsTo key.kind := by
  have h : (ofKeys keys).registered.needed.contains kind = true := h
  obtain ⟨goal, hgoal, hleads⟩ := KindSet.contains_needed_iff.mp h
  obtain ⟨key, hkey, rfl⟩ := registered_ofKeys.mp hgoal
  exact ⟨key, hkey, hleads⟩

/-- A walk that needs nothing reads nothing. -/
theorem Document.walk_of_not_needed (doc : Document) {plan : Plan}
    (h : ∀ kind, plan.needed.contains kind ≠ true) (kind : ViewKind) (pos : Nat) :
    doc.walk plan kind pos = ⟨[], .ok ()⟩ := by
  cases kind with
  | node kind => exact Walk.node_of_not_needed (h kind) _
  | record kind =>
    have hreach : plan.reaches (.record kind) ≠ true := by
      intro hreach
      obtain ⟨needed, _, hneeded⟩ := Plan.reaches_iff.mp hreach
      exact h needed hneeded
    exact if_neg hreach

theorem Object.links_fresh (place : Place) (extent : Extent) :
    (fresh place extent).links = [] := by
  simp [links, fresh]

/-- Letting go of objects leaves the index alone. -/
theorem Heap.index_collect (h : Heap) (roots : List Nat) : (h.collect roots).index = h.index :=
  collect_induction (P := fun g => g.index = h.index) (fun _ hg => hg) rfl

/-- The object that stands for a place is the live one that is there. -/
theorem Heap.Sound.find?_iff {h : Heap} {doc : Document} (hs : h.Sound doc) {place : Place}
    {serial : Nat} :
    h.find? place = some serial ↔ ∃ o, h.get? serial = some o ∧ o.place = place := by
  constructor
  · intro hf
    obtain ⟨o, ho, hp, _⟩ := hs.live_of_find? hf
    exact ⟨o, ho, hp⟩
  · rintro ⟨o, ho, rfl⟩
    have hi : h.Live ⟨o.place, o.extent, serial⟩ := ⟨o, ho, rfl, rfl⟩
    exact hs.find?_of_live hi

namespace Session

variable {s t u v : Session} {item : Link} {doc : Document}

/-! ## Constructions -/

/-- The way from a session to another, with the places of what is constructed on it, in order. -/
inductive Constructs : Session → List Place → Session → Prop where
  /-- Nothing happens. -/
  | refl (s : Session) : Constructs s [] s
  /-- An object is constructed at a place where nothing is live. -/
  | built {s u t : Session} {places : List Place} {place : Place} {extent : Extent}
      (absent : ∀ item, s.heap.Live item → item.place ≠ place)
      (added : u.heap = (s.heap.add (.fresh place extent)).2)
      (rest : Constructs u places t) : Constructs s (place :: places) t
  /-- Anything else: the number of constructions and what was built last at each place stay. -/
  | quiet {s u t : Session} {places : List Place}
      (same : u.heap.constructed = s.heap.constructed) (index : u.heap.index = s.heap.index)
      (rest : Constructs u places t) : Constructs s places t

theorem Constructs.of_index_eq (h : t.heap.constructed = s.heap.constructed)
    (hindex : t.heap.index = s.heap.index) : s.Constructs [] t := .quiet h hindex (.refl t)

theorem Constructs.trans {places places' : List Place} (h : s.Constructs places t)
    (h' : t.Constructs places' u) : s.Constructs (places ++ places') u := by
  induction h with
  | refl s => exact h'
  | built absent added _ ih => exact .built absent added (ih h')
  | quiet same index _ ih => exact .quiet same index (ih h')

theorem Constructs.constructed {places : List Place} (h : s.Constructs places t) :
    t.heap.constructed = s.heap.constructed + places.length := by
  induction h with
  | refl s => rfl
  | built _ added _ ih =>
    rw [ih, added, Heap.constructed_add, List.length_cons]
    omega
  | quiet same _ _ ih => rw [ih, same]

/-- At any other place what was built last is what was built last before. -/
theorem Constructs.lookup {places : List Place} (h : s.Constructs places t) {place : Place}
    (hplace : place ∉ places) : t.heap.index.lookup place = s.heap.index.lookup place := by
  induction h with
  | refl s => rfl
  | built _ added _ ih =>
    obtain ⟨hne, hrest⟩ := List.ne_and_not_mem_of_not_mem_cons hplace
    rw [ih hrest, added, Heap.lookup_add]
    exact if_neg hne
  | quiet _ index _ ih => rw [ih hplace, index]

/-! ## In the middle of a run -/

/-- A session in the middle of a run that began in `s`: on top of what was held then the run holds
`held`. What was live is as it was, and what is new is held by the run and holds nothing. -/
structure Away (s : Session) (held : List Nat) (u : Session) : Prop where
  sound : u.Sound
  document : u.document = s.document
  token : u.token = s.token
  handles : u.handles = s.handles
  depth : u.depth = s.depth
  pins : u.pins = held ++ s.pins
  longer : s.heap.constructed ≤ u.heap.constructed
  old : ∀ serial < s.heap.constructed, u.heap.get? serial = s.heap.get? serial
  fresh : ∀ serial o, s.heap.constructed ≤ serial → u.heap.get? serial = some o →
    serial ∈ held ∧ o.links = []

variable {held : List Nat}

theorem mem_roots_lt (hs : s.Sound) {serial : Nat} (h : serial ∈ s.roots) :
    serial < s.heap.constructed := by
  rcases List.mem_append.mp h with h | h
  · obtain ⟨entry, hentry, hmark⟩ := List.mem_filterMap.mp h
    obtain ⟨item, hitem, rfl⟩ := Option.map_eq_some_iff.mp hmark
    obtain ⟨o, ho, _⟩ := hs.handles entry hentry item hitem
    exact Heap.get?_lt ho
  · obtain ⟨o, ho⟩ := hs.pins serial h
    exact Heap.get?_lt ho

theorem mem_links_lt (hs : s.Sound) {serial holder : Nat} {o : Object}
    (ho : s.heap.get? holder = some o) (h : serial ∈ o.links) : serial < s.heap.constructed := by
  obtain ⟨index, d, item, hd, hitem, rfl⟩ := Object.mem_links_iff.mp h
  obtain ⟨p, hp, _⟩ := hs.heap.closed ho hd item hitem
  exact Heap.get?_lt hp

/-- The view that a run is started on is held. -/
theorem Away.start (hs : s.Sound) (hi : s.heap.Live item) :
    Away s [item.mark] ((pin item.mark).run s).2 where
  sound := (pin_passes hs hi).sound
  document := rfl
  token := rfl
  handles := rfl
  depth := rfl
  pins := rfl
  longer := Nat.le_refl _
  old _ _ := rfl
  fresh _ _ hle hget := absurd (Heap.get?_lt hget) (Nat.not_lt.mpr hle)

/-- A node is entered: its view is built unless it is there, and is held. -/
theorem Away.enter (h : Away s held u) {event : Event}
    (hopen : (openNode event).run u = (some item, v)) :
    Away s (item.mark :: held) ((pin item.mark).run v).2 ∧
      ∃ places, u.Constructs places ((pin item.mark).run v).2 ∧ places.Sublist [event.place] := by
  obtain ⟨hreads, hi, _⟩ := openNode_reads h.sound hopen
  have hsound := (pin_passes hreads.sound hi).sound
  have hex := exec_of_openNode hopen
  have hpins : ((pin item.mark).run v).2.pins = item.mark :: held ++ s.pins := by
    change item.mark :: v.pins = _
    rw [hreads.grows.pins, h.pins]
    rfl
  rcases openPlace_cases h.sound event.place with ⟨found, hfound⟩ | ⟨extent, habsent, hbuilt⟩ |
    ⟨fault, hfault⟩
  · cases hfound.symm.trans hex
    refine ⟨?_, [], .of_index_eq rfl rfl, List.nil_sublist _⟩
    refine ⟨hsound, h.document, h.token, h.handles, h.depth, hpins, h.longer, h.old, ?_⟩
    intro serial o hle hget
    obtain ⟨hheld, hlinks⟩ := h.fresh serial o hle hget
    exact ⟨List.mem_cons_of_mem _ hheld, hlinks⟩
  · cases hbuilt.symm.trans hex
    have hadded := Heap.constructed_add u.heap (.fresh event.place extent)
    refine ⟨?_, [event.place], .built habsent rfl (.of_index_eq rfl rfl), .refl _⟩
    refine ⟨hsound, h.document, h.token, h.handles, h.depth, hpins, ?_, ?_, ?_⟩
    · exact h.longer.trans (hadded ▸ Nat.le_succ _)
    · intro serial hlt
      have hne : serial ≠ u.heap.constructed := Nat.ne_of_lt (hlt.trans_le h.longer)
      change (u.heap.add (.fresh event.place extent)).2.get? serial = _
      rw [Heap.get?_add, if_neg hne]
      exact h.old serial hlt
    · intro serial o hle hget
      change (u.heap.add (.fresh event.place extent)).2.get? serial = some o at hget
      rw [Heap.get?_add] at hget
      split at hget
      · rename_i hserial
        cases hget
        exact ⟨hserial ▸ List.mem_cons_self, Object.links_fresh ..⟩
      · obtain ⟨hheld, hlinks⟩ := h.fresh serial o hle hget
        exact ⟨List.mem_cons_of_mem _ hheld, hlinks⟩
  · cases hfault.symm.trans hex

/-- What is held once `serial` is let go of: by the run, or as it was before the run. -/
theorem Away.mem_roots_iff {serial root : Nat} (h : Away s (serial :: held) u) :
    root ∈ ({ u with pins := u.pins.drop 1 } : Session).roots ↔ root ∈ held ∨ root ∈ s.roots := by
  simp only [Session.roots, h.handles, h.pins, List.cons_append, List.drop_succ_cons,
    List.drop_zero, List.mem_append]
  tauto

/-- What was live before the run is held as it was then, so letting go of `serial` takes none of
it. -/
theorem Away.old_leave {serial : Nat} (h : Away s (serial :: held) u) (ht : s.Tidy) {other : Nat}
    (hother : other < s.heap.constructed) :
    (unpin.run u).2.heap.get? other = s.heap.get? other := by
  set w : Session := { u with pins := u.pins.drop 1 }
  -- each sweep finds all that was live before, so it takes none of it
  suffices hall : ∀ other < s.heap.constructed,
      (w.heap.collect w.roots).get? other = s.heap.get? other from hall other hother
  refine Heap.collect_induction
    (P := fun g => ∀ other < s.heap.constructed, g.get? other = s.heap.get? other) ?_ h.old
  intro g hg other hother
  cases hget : s.heap.get? other with
  | none =>
    cases hsweep : (g.sweep w.roots).get? other with
    | none => rfl
    | some o =>
      have hnone := (hg other hother).trans hget
      rw [Heap.get?_of_sweep hsweep] at hnone
      cases hnone
  | some o =>
    rcases ht other o hget with hroot | ⟨holder, p, hholder, hlink⟩
    · rw [Heap.get?_sweep_of_root (h.mem_roots_iff.mpr (.inr hroot)), hg other hother, hget]
    · have hp := (hg holder (Heap.get?_lt hholder)).trans hholder
      rw [Heap.get?_sweep_of_link hp hlink, hg other hother, hget]

/-- What is new and is not held by the run any more is gone after letting go of `serial`. -/
theorem Away.fresh_leave {serial : Nat} (h : Away s (serial :: held) u) (hs : s.Sound) {other : Nat}
    {o : Object} (hother : s.heap.constructed ≤ other)
    (hget : (unpin.run u).2.heap.get? other = some o) : other ∈ held ∧ o.links = [] := by
  set w : Session := { u with pins := u.pins.drop 1 }
  have hget : (w.heap.collect w.roots).get? other = some o := hget
  obtain ⟨_, hlinks⟩ := h.fresh other o hother (Heap.get?_of_collect hget)
  refine ⟨?_, hlinks⟩
  rcases w.heap.collect_tidy w.roots other o hget with hroot | ⟨holder, p, hholder, hlink⟩
  · rcases h.mem_roots_iff.mp hroot with hroot | hroot
    · exact hroot
    · have hold := mem_roots_lt hs hroot
      omega
  · -- nothing links to it: what is old links to what is old, and what is new links to nothing
    have hp : u.heap.get? holder = some p := Heap.get?_of_collect hholder
    by_cases hlt : holder < s.heap.constructed
    · have hold := mem_links_lt hs ((h.old holder hlt).symm.trans hp) hlink
      omega
    · rw [(h.fresh holder p (Nat.le_of_not_lt hlt) hp).2] at hlink
      exact absurd hlink List.not_mem_nil

/-- A node is left. -/
theorem Away.leave {serial : Nat} (h : Away s (serial :: held) u) (hs : s.Sound) (ht : s.Tidy) :
    Away s held (unpin.run u).2 ∧ u.Constructs [] (unpin.run u).2 := by
  obtain ⟨hpass, hdrop⟩ := unpin_passes h.sound
  have hconstructed : (unpin.run u).2.heap.constructed = u.heap.constructed :=
    Heap.constructed_collect ..
  refine ⟨?_, .of_index_eq hconstructed (Heap.index_collect ..)⟩
  exact {
    sound := hpass.sound
    document := h.document
    token := h.token
    handles := h.handles
    depth := h.depth
    pins := by rw [hdrop, h.pins]; rfl
    longer := hconstructed ▸ h.longer
    old := fun _ hother => h.old_leave ht hother
    fresh := fun _ _ hother hget => h.fresh_leave hs hother hget }

/-- A walk that ends leaves every node that it is inside of. -/
theorem Away.leaveAll {inside : List Link} (h : Away s (inside.map Item.mark ++ held) u)
    (hs : s.Sound) (ht : s.Tidy) :
    Away s held ((inside.forM fun _ => unpin).run u).2 ∧
      u.Constructs [] ((inside.forM fun _ => unpin).run u).2 := by
  induction inside generalizing u with
  | nil => exact ⟨h, .refl u⟩
  | cons item rest ih =>
    obtain ⟨hleft, hquiet⟩ := Away.leave h hs ht
    obtain ⟨hrest, hquiet'⟩ := ih hleft
    exact ⟨hrest, hquiet.trans hquiet'⟩

/-! ## Callbacks that do nothing to the session -/

variable {α : Type} {callback : Event → Link → StateM Session α}

/-- The callback keeps and decodes nothing: whatever it sees, the session is as it was. -/
def Idle (callback : Event → Link → StateM Session α) : Prop :=
  ∀ event item s, ((callback event item).run s).2 = s

theorem callAll_idle (hcall : Idle callback) (plan : Plan) (event : Event) (item : Link)
    (s : Session) : ((callAll plan callback event item).run s).2 = s := by
  unfold callAll
  generalize plan.callbacks event.phase event.kind = keys
  induction keys with
  | nil => rfl
  | cons key rest ih =>
    have hfirst : (StateT.run (do
        return (⟨key, event, ← callback event item⟩ : Call α)) s).2 = s := hcall event item s
    rw [List.mapM_cons, run_bind, hfirst]
    exact ih

/-- The events of a walk: in the end the run holds what it held before them, and each construction
is for a node that they enter. -/
theorem Away.replay (plan : Plan) (hcall : Idle callback) (hs : s.Sound) (ht : s.Tidy)
    {inside : List Link} {places : List Place} {events : List Event}
    (hn : Nested s.document places events) (hplaces : inside.map Item.place = places)
    (h : Away s (inside.map Item.mark ++ held) u) :
    Away s held ((replay plan callback inside events).run u).2 ∧
      ∃ built, u.Constructs built ((Session.replay plan callback inside events).run u).2 ∧
        built.Sublist (entered events) := by
  -- along the nesting of the events: what is held are the views of the nodes that are open
  induction hn generalizing inside u with
  | nil places =>
    obtain ⟨haway, hquiet⟩ := h.leaveAll hs ht
    have hnil : ((Session.replay plan callback inside []).run u).2 =
        ((inside.forM fun _ => unpin).run u).2 := by
      unfold Session.replay
      rfl
    rw [hnil]
    exact ⟨haway, [], hquiet, .refl []⟩
  | @enter places rest kind pos checked _ ih =>
    obtain ⟨item, v, hopen⟩ := openNode_run h.sound ⟨.enter, kind, pos⟩ (by rwa [h.document])
    obtain ⟨_, _, hplace⟩ := openNode_reads h.sound hopen
    obtain ⟨haway, first, hfirst, hsub⟩ := h.enter hopen
    set w := ((pin item.mark).run v).2 with hw
    have hinner : (item :: inside).map Item.place = .view (.node kind) pos :: places := by
      rw [List.map_cons, hplace, hplaces]
    obtain ⟨haway', built, hbuilt, hsub'⟩ := ih hinner haway
    have henter : ((Session.replay plan callback inside (⟨.enter, kind, pos⟩ :: rest)).run u).2 =
        ((Session.replay plan callback (item :: inside) rest).run w).2 := by
      have hidle := callAll_idle hcall plan ⟨.enter, kind, pos⟩ item w
      rw [replay_enter, run_bind, hopen]
      change ((Session.replay plan callback (item :: inside) rest).run
        ((callAll plan callback ⟨.enter, kind, pos⟩ item).run w).2).2 = _
      rw [hidle]
    rw [henter, entered_enter]
    exact ⟨haway', first ++ built, hfirst.trans hbuilt, hsub.append hsub'⟩
  | @exit places rest kind pos _ ih =>
    cases inside with
    | nil => simp at hplaces
    | cons item outer =>
      obtain ⟨_, houter⟩ := List.cons.inj hplaces
      obtain ⟨haway, hquiet⟩ := Away.leave h hs ht
      obtain ⟨haway', built, hbuilt, hsub⟩ := ih houter haway
      have hexit : ((Session.replay plan callback (item :: outer)
          (⟨.exit, kind, pos⟩ :: rest)).run u).2 =
            ((Session.replay plan callback outer rest).run (unpin.run u).2).2 := by
        have hidle := callAll_idle hcall plan ⟨.exit, kind, pos⟩ item u
        rw [replay_exit, run_bind, hidle]
        rfl
      rw [hexit, entered_exit]
      exact ⟨haway', built, hquiet.trans hbuilt, hsub⟩

/-! ## Runs -/

/-- Nothing that can be seen of a session has changed: what it holds, what is live with all its
slots and notes, and which object stands for a place. -/
structure Undisturbed (s t : Session) : Prop where
  document : t.document = s.document
  token : t.token = s.token
  handles : t.handles = s.handles
  pins : t.pins = s.pins
  depth : t.depth = s.depth
  objects : ∀ serial, t.heap.get? serial = s.heap.get? serial
  found : ∀ place, t.heap.find? place = s.heap.find? place

/-- With nothing held by the run any more, all is as it was. -/
theorem Away.undisturbed (h : Away s [] t) (hs : s.Sound) : s.Undisturbed t := by
  have hobjects : ∀ serial, t.heap.get? serial = s.heap.get? serial := by
    intro serial
    by_cases hlt : serial < s.heap.constructed
    · exact h.old serial hlt
    · have hle := Nat.le_of_not_lt hlt
      have hnone : s.heap.get? serial = none := by
        by_contra hsome
        obtain ⟨o, ho⟩ := Option.ne_none_iff_exists'.mp hsome
        exact hlt (Heap.get?_lt ho)
      rw [hnone]
      cases hget : t.heap.get? serial with
      | none => rfl
      | some o => exact absurd (h.fresh serial o hle hget).1 List.not_mem_nil
  refine ⟨h.document, h.token, h.handles, h.pins, h.depth, hobjects, fun place => ?_⟩
  ext serial
  rw [h.sound.heap.find?_iff, hs.heap.find?_iff, hobjects]

/-- A session in which a run can start. -/
inductive Ready (doc : Document) : Session → Prop where
  /-- Between operations, or wherever a callback of another run finds the session. -/
  | reachable {s : Session} (h : Reachable doc s) : Ready doc s
  /-- A path has been followed from a handle. -/
  | followed {s t : Session} {name : String} {held : Datum Link} {path : List Segment}
      {found : Except Fault (Option (Datum Link))} (h : Reachable doc s)
      (handle : s.handle? name = some held)
      (followed : (follow held path).run.run s = (found, t)) : Ready doc t

theorem Ready.sound (h : Ready doc s) : s.document = doc ∧ s.Sound ∧ s.Tidy := by
  cases h with
  | reachable h =>
    obtain ⟨hdoc, hs, _⟩ := h.sound
    exact ⟨hdoc, hs, h.tidy⟩
  | @followed r t name held path found h handle followed =>
    obtain ⟨hdoc, hs, _⟩ := h.sound
    have hheld := handle_holds hs handle
    have hreads := (follow_reading hs hheld path).reads
    have htidy := follow_tidy hs hheld h.tidy path
    have hex : r.exec (follow held path) = (found, s) := followed
    rw [hex] at hreads htidy
    exact ⟨hreads.grows.document.trans hdoc, hreads.sound, htidy⟩

/-- What a run of a visitor leaves behind. -/
structure LeavesNoTrace (s : Session) (visitor : Visitor)
    (callback : Event → Link → StateM Session α) (item : Link) (nodes : List Place) : Prop where
  /-- Whether the walk ends well or in a fault, the session is as it was. -/
  undisturbed : s.Undisturbed ((run visitor callback item).run s).2
  /-- What is constructed meanwhile are views of nodes that are entered, at most one each time. -/
  constructs : ∃ built, s.Constructs built ((run visitor callback item).run s).2 ∧
    built.Sublist nodes
  /-- Nothing is constructed anywhere else. -/
  elsewhere : ∀ place ∉ nodes,
    ((run visitor callback item).run s).2.heap.index.lookup place = s.heap.index.lookup place
  /-- These are nodes of kinds with a key. -/
  registered : ∀ place ∈ nodes, ∃ kind pos, place = .view (.node kind) pos ∧
    visitor.plan.registered.contains kind = true
  /-- So the number of constructions is bounded by the number of times one is entered. -/
  bounded : ((run visitor callback item).run s).2.heap.constructed ≤
    s.heap.constructed + nodes.length

theorem entered_keyed {plan : Plan} {t : Trace Unit} (h : t.Keyed plan Unit) :
    ∀ place ∈ entered t.events, ∃ kind pos, place = .view (.node kind) pos ∧
      plan.registered.contains kind = true := by
  intro place hplace
  obtain ⟨event, hevent, hsome⟩ := List.mem_filterMap.mp hplace
  refine ⟨event.kind, event.pos, ?_, h event hevent⟩
  split at hsome
  · exact (Option.some.inj hsome).symm
  · cases hsome

theorem run_away (hs : s.Sound) (ht : s.Tidy) (hi : s.heap.Live item) {kind : ViewKind} {pos : Nat}
    (hplace : item.place = .view kind pos) (visitor : Visitor) (hcall : Idle callback) :
    Away s [] ((run visitor callback item).run s).2 ∧
      ∃ built, s.Constructs built ((run visitor callback item).run s).2 ∧
        built.Sublist (entered (s.document.walk visitor.plan kind pos).events) := by
  have hstart : Away s (([] : List Link).map Item.mark ++ [item.mark])
    ((pin item.mark).run s).2 := Away.start hs hi
  obtain ⟨haway, built, hbuilt, hsub⟩ := hstart.replay visitor.plan hcall hs ht
    (s.document.walk_nested visitor.plan kind pos) rfl
  obtain ⟨hend, hquiet⟩ := haway.leave hs ht
  have hpinned : s.Constructs [] ((pin item.mark).run s).2 := .of_index_eq rfl rfl
  have hconstructs := hpinned.trans (hbuilt.trans hquiet)
  rw [List.nil_append, List.append_nil] at hconstructs
  rw [run_eq hplace]
  exact ⟨hend, built, hconstructs, hsub⟩

/-- Without keys nothing is needed, so nothing is entered. -/
theorem run_keyless (ht : s.Tidy) {kind : ViewKind} {pos : Nat}
    (hplace : item.place = .view kind pos) {visitor : Visitor}
    (hkeys : ∀ kind, visitor.plan.needed.contains kind ≠ true)
    (callback : Event → Link → StateM Session α) :
    (run visitor callback item).run s =
      (⟨[], none, (visitor.walk s.document kind pos).2⟩, s) := by
  have hend : (unpin.run ((pin item.mark).run s).2).2 = s := ht.collect_eq
  rw [run_eq hplace, s.document.walk_of_not_needed hkeys]
  refine Prod.ext rfl ?_
  exact hend

/-- A run whose callbacks keep and decode nothing leaves the session as it was, and constructs
nothing but views of nodes of kinds with a key, at most one each time it enters one. Without keys it
ends well on any view and does nothing, whatever the callbacks are. -/
theorem run_leavesNoTrace (h : Ready doc s) (hi : s.heap.Live item) {kind : ViewKind} {pos : Nat}
    (hplace : item.place = .view kind pos) :
    (∀ {α : Type} (visitor : Visitor) (callback : Event → Link → StateM Session α), Idle callback →
      LeavesNoTrace s visitor callback item (entered (doc.walk visitor.plan kind pos).events)) ∧
    ∃ fresh, Visitor.compile [] = .ok fresh ∧ ∀ {α : Type} (visitor : Visitor)
      (callback : Event → Link → StateM Session α), fresh.Reused visitor →
        (run visitor callback item).run s =
          (⟨[], none, (visitor.walk doc kind pos).2⟩, s) := by
  obtain ⟨rfl, hs, ht⟩ := h.sound
  refine ⟨fun visitor callback hcall => ?_, { plan := .ofKeys [] }, rfl, ?_⟩
  · obtain ⟨haway, built, hconstructs, hsub⟩ := run_away hs ht hi hplace visitor hcall
    refine ⟨haway.undisturbed hs, ⟨built, hconstructs, hsub⟩,
      fun place hplace => hconstructs.lookup fun hbuilt => hplace (hsub.subset hbuilt),
      entered_keyed (s.document.walk_keyed visitor.plan kind pos), ?_⟩
    rw [hconstructs.constructed]
    exact Nat.add_le_add_left hsub.length_le _
  · intro α visitor callback hreused
    refine run_keyless ht hplace (fun needed hneeded => ?_) callback
    rw [hreused.plan_eq] at hneeded
    obtain ⟨key, hkey, _⟩ := Plan.leadsTo_of_needed hneeded
    exact absurd hkey List.not_mem_nil

/-- A session in which a statement at the start of a buffer of zeros is held. -/
def insideStatement : Session :=
  ((pin 0).run ((openNode ⟨.enter, .expressionStatement, 0⟩).run (.start (.zeros 64) 1)).2).2

/-- The view of that statement. -/
def statement : Link := ⟨.view (.node .expressionStatement) 0, ⟨0, 1⟩, 0⟩

/-- A visitor of statements and of the literal in this one. -/
def statementVisitor : Visitor :=
  { plan := .ofKeys [⟨.expressionStatement, .enter⟩, ⟨.booleanLiteral, .exit⟩] }

theorem insideStatement_ready : Ready (.zeros 64) insideStatement := by
  have hopen : (openNode ⟨.enter, .expressionStatement, 0⟩).run (.start (.zeros 64) 1) =
      (some statement,
        ((openNode ⟨.enter, .expressionStatement, 0⟩).run (.start (.zeros 64) 1)).2) := rfl
  exact .reachable (.bare 1 (.enter .refl hopen))

theorem statement_live : insideStatement.heap.Live statement := ⟨_, rfl, rfl, rfl⟩

/-- Two nodes are entered: the statement, whose view is there, and the literal, whose view is
built. -/
theorem run_leavesNoTrace_statement : LeavesNoTrace insideStatement statementVisitor
    (fun _ _ => (pure () : StateM Session Unit)) statement
      [.view (.node .expressionStatement) 0, .view (.node .booleanLiteral) 0] ∧
    ((run statementVisitor (fun _ _ => (pure () : StateM Session Unit)) statement).run
      insideStatement).2.heap.constructed = 2 := by
  have hentered : entered ((Document.zeros 64).walk statementVisitor.plan
      (.node .expressionStatement) 0).events =
        [.view (.node .expressionStatement) 0, .view (.node .booleanLiteral) 0] := by
    decide +kernel
  have hidle : Idle fun _ _ => (pure () : StateM Session Unit) := fun _ _ _ => rfl
  obtain ⟨hruns, _⟩ := run_leavesNoTrace insideStatement_ready statement_live rfl
  have htrace := hruns statementVisitor _ hidle
  rw [hentered] at htrace
  exact ⟨htrace, by decide +kernel⟩

end Session

end FlatSyntax
