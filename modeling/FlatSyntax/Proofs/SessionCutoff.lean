import Mathlib
import FlatSyntax.Proofs.Cutoff
import FlatSyntax.Proofs.History
import FlatSyntax.Proofs.Pruning

/-!
# Sessions that are cut off

Two sessions of different histories, over documents of which one is cut off from the other. Each
answers as its document does, so an answer of the first is the answer of the second, up to which
object it is, or a fault of the sort that cuts off. A run of a visitor calls for the same nodes, until
it is cut off.
-/

namespace FlatSyntax

variable {cut : Fault → Prop}

/-! ## What callbacks see -/

theorem NodeKind.size_ge (kind : NodeKind) : 8 ≤ (ViewKind.node kind).size := by
  have htable : ∀ kind ∈ all, 8 ≤ (ViewKind.node kind).size := by decide
  exact htable kind kind.mem_all

namespace Document

variable {doc doc' : Document}

theorem offset_le (doc : Document) (pos distance : Nat) :
    doc.offset pos distance ≤ pos + distance := by
  unfold offset Addressing.add
  cases doc.addressing with
  | saturating => exact Nat.min_le_left _ _
  | exact => exact Nat.le_refl _

theorem word_of_le {pos : Nat} (h : pos + 4 ≤ doc.size) : ∃ n, doc.word pos = .ok n := by
  unfold word
  rw [bytes_of_le h]
  exact ⟨_, rfl⟩

/-- A node whose bytes lie in the buffer has a source range. -/
theorem span_of_check {kind : NodeKind} {pos : Nat}
    (h : doc.check pos (ViewKind.node kind).size = .ok ()) : ∃ span, doc.span pos = .ok span := by
  have hbound := check_ok h
  have hsize := kind.size_ge
  have hoffset := doc.offset_le pos 4
  obtain ⟨start, hstart⟩ := word_of_le (show pos + 4 ≤ doc.size by omega)
  obtain ⟨stop, hstop⟩ := word_of_le (show doc.offset pos 4 + 4 ≤ doc.size by omega)
  refine ⟨⟨start, stop⟩, ?_⟩
  unfold span
  rw [hstart, hstop]
  rfl

end Document

/-- The nodes of nested events lie in the buffer, if those that are entered already do. -/
theorem Nested.checked {doc : Document} {inside : List Place} {events : List Event}
    (h : Nested doc inside events)
    (hinside : ∀ kind pos, .view (.node kind) pos ∈ inside →
      doc.check pos (ViewKind.node kind).size = .ok ()) :
    ∀ event ∈ events, doc.check event.pos (ViewKind.node event.kind).size = .ok () := by
  induction h with
  | nil inside => simp
  | @enter inside rest kind pos checked _ ih =>
    have hrest := ih fun k p hmem => by
      rcases List.mem_cons.mp hmem with heq | hmem
      · cases heq
        exact checked
      · exact hinside k p hmem
    intro event hevent
    rcases List.mem_cons.mp hevent with rfl | hevent
    · exact checked
    · exact hrest event hevent
  | @exit inside rest kind pos _ ih =>
    have hrest := ih fun k p hmem => hinside k p (List.mem_cons_of_mem _ hmem)
    intro event hevent
    rcases List.mem_cons.mp hevent with rfl | hevent
    · exact hinside kind pos List.mem_cons_self
    · exact hrest event hevent

/-- What a callback saw is what another saw; only a plain value may be cut off. -/
def Sight.CutFrom (cut : Fault → Prop) : Sight → Sight → Prop
  | .plain v, .plain v' => Cutoff cut v v'
  | a, b => a = b

theorem Detail.sight_cutFrom {doc doc' : Document} (h : doc.CutFrom cut doc')
    (hlevels : doc.Levels cut doc' doc.options.maxDepth doc'.options.maxDepth) (detail : Detail)
    {event : Event} (checked : doc.check event.pos (ViewKind.node event.kind).size = .ok ()) :
    (detail.sight doc event).CutFrom cut (detail.sight doc' event) := by
  obtain ⟨span, hspan⟩ := Document.span_of_check checked
  have hspan' := (h.span (.refl event.pos)).eq_of_ok hspan
  cases detail with
  | offset => rfl
  | span =>
    change Sight.span _ = Sight.span _
    rw [hspan, hspan']
  | text =>
    change Sight.text (doc.span event.pos >>= doc.sourceOf) =
      Sight.text (doc'.span event.pos >>= doc'.sourceOf)
    rw [hspan, hspan']
    change Sight.text (doc.sourceOf span) = Sight.text (doc'.sourceOf span)
    rw [h.sources]
  | plain => exact h.project hlevels _ _

/-! ## Runs -/

/-- A log does not show what was seen. -/
theorem Plan.log_eq {α : Type} (plan : Plan) (sight : Event → α) (events : List Event) :
    (plan.calls sight events).map (fun call => (call.key, call.event)) =
      events.flatMap fun event =>
        (plan.callbacks event.phase event.kind).map fun key => (key, event) := by
  unfold Plan.calls
  rw [List.map_flatMap]
  simp only [List.map_map]
  rfl

/-- A call is another, up to what was seen being cut off. -/
structure Call.CutFrom (cut : Fault → Prop) (c c' : Call Sight) : Prop where
  key : c.key = c'.key
  event : c.event = c'.event
  seen : c.seen.CutFrom cut c'.seen

theorem Plan.calls_cutFrom (plan : Plan) {sight sight' : Event → Sight} {events : List Event}
    (h : ∀ event ∈ events, (sight event).CutFrom cut (sight' event)) :
    List.Forall₂ (Call.CutFrom cut) (plan.calls sight events) (plan.calls sight' events) := by
  induction events with
  | nil => exact .nil
  | cons event rest ih =>
    have hrest := ih fun other hother => h other (List.mem_cons_of_mem event hother)
    have hevent := h event List.mem_cons_self
    refine List.rel_append ?_ hrest
    rw [List.forall₂_map_left_iff, List.forall₂_map_right_iff, List.forall₂_same]
    exact fun key _ => ⟨rfl, rfl, hevent⟩

namespace Session

/-- A run is another one, or its beginning up to a fault of the given sort. -/
structure Outcome.CutFrom {α : Type} (cut : Fault → Prop) (o o' : Outcome α) : Prop where
  /-- The log is where that of the other starts. -/
  log : o.log <+: o'.log
  /-- A run that is not cut off is the other. -/
  rest : (∀ f, o.fault = some f → ¬ cut f) → o.log = o'.log ∧ o.fault = o'.fault

theorem Outcome.CutFrom.of_trace {α : Type} {plan : Plan} {sight sight' : Event → α}
    {t u : Trace Unit} {o o' : Outcome α} (h : t.CutFrom cut u)
    (hcalls : o.calls = plan.calls sight t.events) (hcalls' : o'.calls = plan.calls sight' u.events)
    (hfault : o.fault = t.fault?) (hfault' : o'.fault = u.fault?) : o.CutFrom cut o' := by
  have hlog : o.log = _ := (congrArg _ hcalls).trans (plan.log_eq sight t.events)
  have hlog' : o'.log = _ := (congrArg _ hcalls').trans (plan.log_eq sight' u.events)
  rcases h with rfl | ⟨f, hf, hresult, rest, hevents⟩
  · have hsame : o.log = o'.log := hlog.trans hlog'.symm
    exact ⟨hsame ▸ List.prefix_refl _, fun _ => ⟨hsame, hfault.trans hfault'.symm⟩⟩
  · refine ⟨?_, fun hnot => ?_⟩
    · rw [hlog, hlog', ← hevents, List.flatMap_append]
      exact List.prefix_append ..
    · refine absurd hf (hnot f ?_)
      rw [hfault, Trace.fault?, hresult]

/-- What the callbacks of a run saw is, call by call, what those of the other saw. -/
theorem calls_seen {plan : Plan} {sight sight' : Event → Sight} {t u : Trace Unit}
    {o o' : Outcome Sight} (h : t.CutFrom cut u)
    (hsight : ∀ event ∈ t.events, (sight event).CutFrom cut (sight' event))
    (hcalls : o.calls = plan.calls sight t.events)
    (hcalls' : o'.calls = plan.calls sight' u.events) :
    List.Forall₂ (Call.CutFrom cut) o.calls (o'.calls.take o.calls.length) := by
  have hprefix : t.events <+: u.events := by
    rcases h with rfl | ⟨_, _, _, hevents⟩
    · exact List.prefix_refl _
    · exact hevents
  obtain ⟨rest, hrest⟩ := hprefix
  have hfront := plan.calls_cutFrom hsight
  have hall : o'.calls = plan.calls sight' t.events ++ plan.calls sight' rest := by
    rw [hcalls', ← hrest]
    exact List.flatMap_append ..
  rw [hcalls, hall, hfront.length_eq, List.take_left]
  exact hfront

end Session

/-! ## Questions -/

/-- What is asked about a datum. -/
inductive Request where
  /-- The datum itself. -/
  | datum
  /-- The plain value of the datum, as reading a layout gave it. -/
  | plain (layout : Layout)
  /-- The name and the source range in a name slot. -/
  | parts

/-- An answer, which does not tell which objects are in it. -/
inductive Answer where
  /-- There is no such thing. -/
  | nothing
  /-- A datum. -/
  | datum (d : Datum (Item Unit))
  /-- A plain value. -/
  | plain (v : Value)
  /-- The parts of a name slot. -/
  | parts (name : Option Text) (span : Option Span)

namespace Document

/-- Answers from the buffer alone. -/
def answer (doc : Document) (d : Datum (Item Unit)) : Request → Except Fault Answer
  | .datum => return .datum d
  | .plain layout => return .plain (← Projection.project doc doc.access layout d)
  | .parts =>
    match d with
    | .slot _ _ content => do
      let (name, span) ← Projection.slotParts doc.access content
      return .parts name span
    | _ => return .nothing

/-- Answers about what a path leads to. -/
def ask (doc : Document) (path : List Segment) (request : Request) (d : Datum (Item Unit)) :
    Except Fault Answer := do
  match ← Path.follow doc doc.access d path with
  | some found => doc.answer found request
  | none => return .nothing

theorem CutFrom.ask {doc doc' : Document} (h : doc.CutFrom cut doc')
    (hlevels : doc.Levels cut doc' doc.options.maxDepth doc'.options.maxDepth)
    (path : List Segment) (request : Request) (d : Datum (Item Unit)) :
    Cutoff cut (doc.ask path request d) (doc'.ask path request d) := by
  refine (h.follow d path).bind fun found => ?_
  cases found with
  | none => exact .refl _
  | some found =>
    cases request with
    | datum => exact .refl _
    | plain layout => exact (h.project hlevels layout found).bind fun v => .refl _
    | parts =>
      cases found with
      | slot k c content => exact (h.slotParts content).bind fun parts => .refl _
      | _ => exact .refl _

end Document

namespace Session

variable {s t : Session}

/-- Answers in a session. -/
def answer (d : Datum Link) : Request → SessionM Answer
  | .datum => return .datum d.erase
  | .plain layout => return .plain (← project layout d)
  | .parts =>
    match d with
    | .slot _ _ content => do
      let (name, span) ← slotParts content
      return .parts name span
    | _ => return .nothing

/-- Answers about what a path leads to. -/
def ask (path : List Segment) (request : Request) (d : Datum Link) : SessionM Answer := do
  match ← follow d path with
  | some found => answer found request
  | none => return .nothing

/-- Opens the root record of a document and answers about what a path from there leads to. -/
def askRoot (doc : Document) (token : UInt32) (pos : Nat) (path : List Segment)
    (request : Request) : Except Fault Answer := do
  let s ← ofRoot doc token pos
  match s.handle? rootHandle with
  | some d => (s.exec (ask path request d)).1
  | none => return .nothing

theorem answer_reading (hs : s.Sound) (hdepth : s.depth = 0) {d : Datum Link}
    (hd : s.heap.Holds d) (request : Request) :
    s.Reading (answer d request) fun _ r =>
      Matches (· = ·) r (s.document.answer d.erase request) := by
  cases request with
  | datum => exact .pure hs (.ok rfl)
  | plain layout =>
    refine (project_reading hs hdepth layout hd).bind_matches fun t v v' ht heq => ?_
    subst heq
    exact .pure ht.sound (.ok rfl)
  | parts =>
    cases d with
    | slot k c content =>
      obtain ⟨content', he⟩ : ∃ content', (Datum.slot k c content).erase = .slot k c content' := by
        cases content <;> exact ⟨_, rfl⟩
      rw [he]
      refine (slotParts_reading hs rfl hd he).bind_matches fun t parts parts' ht heq => ?_
      subst heq
      exact .pure ht.sound (.ok rfl)
    | _ => exact .pure hs (.ok rfl)

/-- A session answers as its document does. -/
theorem ask_reading (hs : s.Sound) (hdepth : s.depth = 0) {d : Datum Link}
    (hd : s.heap.Holds d) (path : List Segment) (request : Request) :
    s.Reading (ask path request d) fun _ r =>
      Matches (· = ·) r (s.document.ask path request d.erase) := by
  refine (follow_reading hs hd path).bind_matches fun t a b ht hab => ?_
  cases hab with
  | none => exact .pure ht.sound (.ok rfl)
  | some hab =>
    obtain ⟨hlive, rfl⟩ := hab
    have hanswer := answer_reading ht.sound (ht.grows.depth.trans hdepth) hlive request
    rwa [ht.grows.document] at hanswer

/-- Reading something and asking about it. -/
theorem exec_ask {x : SessionM (Datum Link)} {y : Except Fault (Datum (Item Unit))}
    (hdepth : s.depth = 0) (hx : s.Reading x fun t r => Matches t.Agrees r y)
    (path : List Segment) (request : Request) :
    (s.exec (x >>= ask path request)).1 = y >>= s.document.ask path request := by
  have hask : s.Reading (x >>= ask path request) fun _ r =>
      Matches (· = ·) r (y >>= s.document.ask path request) := by
    refine hx.bind_matches fun t d e ht hde => ?_
    obtain ⟨hlive, rfl⟩ := hde
    have hreading := ask_reading ht.sound (ht.grows.depth.trans hdepth) hlive path request
    rwa [ht.grows.document] at hreading
  exact hask.outcome.eq_of_eq

theorem viewAt_agrees (hs : s.Sound) {token : UInt32} (htoken : s.token = token)
    (kind : ViewKind) (pos : Nat) :
    s.Reading (viewAt token kind pos) fun t r =>
      Matches t.Agrees r (Datum.object <$> s.document.openPlace (.view kind pos)) := by
  refine .get_bind ?_
  rw [if_pos htoken, ← map_eq_pure_bind]
  refine (openPlace_reading hs (.view kind pos)).map_matches fun t item item' _ h => ?_
  obtain ⟨hlive, rfl⟩ := h
  exact ⟨fun other hother => Option.some.inj hother ▸ hlive, rfl⟩

theorem askRoot_eq (doc : Document) (token : UInt32) (pos : Nat) (path : List Segment)
    (request : Request) :
    askRoot doc token pos path request =
      doc.read "root" (.record .root) pos >>= doc.ask path request := by
  have hread := decode_reading (.start doc token) "root" (.record .root) pos
  obtain ⟨hreads, hout⟩ := hread
  have hroot : ofRoot doc token pos =
      (match (start doc token).exec (decode "root" (.record .root) pos) with
        | (result, t) => result.map fun d => t.save rootHandle d) := rfl
  have hdoc : (start doc token).document = doc := rfl
  unfold askRoot
  rw [hroot]
  rw [hdoc] at hout
  generalize (start doc token).exec (decode "root" (.record .root) pos) = r at hreads hout
  generalize doc.read "root" (.record .root) pos = y at hout
  obtain ⟨r, t⟩ := r
  cases hout with
  | error f => rfl
  | @ok d e h =>
    obtain ⟨hlive, rfl⟩ := h
    have hsave := save_steps hreads.sound rootHandle hlive
    have hhandle : (t.save rootHandle d).handle? rootHandle = some d := by
      simp [save, handle?]
    have hask := ask_reading hsave.sound (hsave.depth.trans hreads.grows.depth)
      (show (t.save rootHandle d).heap.Holds d from hlive) path request
    have hdocument : (t.save rootHandle d).document = doc := hreads.grows.document
    rw [hdocument] at hask
    change (match (t.save rootHandle d).handle? rootHandle with
      | some d => ((t.save rootHandle d).exec (ask path request d)).1
      | none => Except.ok .nothing) = doc.ask path request d.erase
    rw [hhandle]
    exact hask.outcome.eq_of_eq

/-! ## Sessions -/

/-- What one session answers is what another answers, or a fault of the given sort. -/
structure CutFrom (cut : Fault → Prop) (s t : Session) : Prop where
  /-- Whatever the sessions hold that is the same up to which object it is. -/
  held : ∀ {d e : Datum Link}, s.heap.Holds d → t.heap.Holds e → d.erase = e.erase →
    ∀ path request, Cutoff cut (s.exec (ask path request d)).1 (t.exec (ask path request e)).1
  /-- Any layout read anywhere. -/
  decode : ∀ field layout pos path request,
    Cutoff cut (s.exec (decode field layout pos >>= ask path request)).1
      (t.exec (Session.decode field layout pos >>= ask path request)).1
  /-- Any view that is asked for, with the right tokens or with wrong ones. -/
  viewAt : ∀ {token token' : UInt32}, (s.token = token ↔ t.token = token') →
    ∀ kind pos path request,
      Cutoff cut (s.exec (viewAt token kind pos >>= ask path request)).1
        (t.exec (Session.viewAt token' kind pos >>= ask path request)).1
  /-- Runs of visitors of one plan on views of one place, whatever their callbacks do. -/
  run : ∀ {x y : Link}, s.heap.Live x → t.heap.Live y → x.place = y.place →
    ∀ {visitor visitor' : Visitor}, visitor.plan = visitor'.plan → ∀ callback callback',
      ((run visitor (carryOut callback) x).run s).1.CutFrom cut
        ((Session.run visitor' (carryOut callback') y).run t).1
  /-- What the callbacks of such runs see. -/
  seen : ∀ {x y : Link}, s.heap.Live x → t.heap.Live y → x.place = y.place →
    ∀ {visitor visitor' : Visitor}, visitor.plan = visitor'.plan → ∀ detail : Detail,
      List.Forall₂ (Call.CutFrom cut) ((Session.run visitor detail.look x).run s).1.calls
        (((Session.run visitor' detail.look y).run t).1.calls.take
          ((Session.run visitor detail.look x).run s).1.calls.length)

theorem cutFrom_of_sound (h : s.document.CutFrom cut t.document)
    (hlevels : s.document.Levels cut t.document s.document.options.maxDepth
      t.document.options.maxDepth)
    (hs : s.Sound) (hsdepth : s.depth = 0) (ht : t.Sound) (htdepth : t.depth = 0) :
    s.CutFrom cut t where
  held hd he hsame path request := by
    have hout := (ask_reading hs hsdepth hd path request).outcome.eq_of_eq
    have hout' := (ask_reading ht htdepth he path request).outcome.eq_of_eq
    rw [hout, hout', hsame]
    exact h.ask hlevels path request _
  decode field layout pos path request := by
    rw [exec_ask hsdepth (decode_reading hs field layout pos),
      exec_ask htdepth (decode_reading ht field layout pos)]
    exact (h.read field layout (.refl pos)).bind (h.ask hlevels path request)
  viewAt {token token'} htokens kind pos path request := by
    by_cases htoken : s.token = token
    · rw [exec_ask hsdepth (viewAt_agrees hs htoken kind pos),
        exec_ask htdepth (viewAt_agrees ht (htokens.mp htoken) kind pos)]
      exact ((h.openView kind (.refl pos)).map _).bind (h.ask hlevels path request)
    · have htoken' : t.token ≠ token' := fun heq => htoken (htokens.mpr heq)
      have hforeign : ∀ (u : Session) (token : UInt32), u.token ≠ token →
          (u.exec (Session.viewAt token kind pos >>= ask path request)).1 =
            .error .foreignSession := by
        intro u token hne
        unfold Session.viewAt
        rw [bind_assoc, exec_bind_ok u (exec_get u), if_neg hne]
        rfl
      rw [hforeign s token htoken, hforeign t token' htoken']
      exact .refl _
  run {x y} hx hy hplace {visitor visitor'} hplan callback callback' := by
    cases hp : x.place with
    | sequence element pos =>
      unfold Session.run
      rw [hp, hplace.symm.trans hp]
      exact ⟨List.prefix_refl _, fun _ => ⟨rfl, rfl⟩⟩
    | view kind pos =>
      obtain ⟨_, hcalls, hfault⟩ := run_run (carryOut_answers s.document callback) hs hsdepth hx
        hp visitor
      obtain ⟨_, hcalls', hfault'⟩ := run_run (carryOut_answers t.document callback') ht htdepth
        hy (hplace.symm.trans hp) visitor'
      rw [← hplan] at hcalls' hfault'
      exact .of_trace (h.walk hlevels visitor.plan kind (.refl pos)) hcalls hcalls' hfault hfault'
  seen {x y} hx hy hplace {visitor visitor'} hplan detail := by
    cases hp : x.place with
    | sequence element pos =>
      unfold Session.run
      rw [hp, hplace.symm.trans hp]
      exact .nil
    | view kind pos =>
      obtain ⟨_, hcalls, _⟩ := run_run (look_answers s.document detail) hs hsdepth hx hp visitor
      obtain ⟨_, hcalls', _⟩ := run_run (look_answers t.document detail) ht htdepth hy
        (hplace.symm.trans hp) visitor'
      rw [← hplan] at hcalls'
      have hnested := s.document.walk_nested visitor.plan kind pos
      have hchecked := hnested.checked fun k p hmem => absurd hmem List.not_mem_nil
      exact calls_seen (h.walk hlevels visitor.plan kind (.refl pos))
        (fun event hevent => detail.sight_cutFrom h hlevels (hchecked event hevent)) hcalls hcalls'

end Session

/-- What is asked of one document is what is asked of another, or a fault of the given sort: of the
root record, as a session is opened, and of any two sessions, whatever has been done in them. -/
structure Document.AnswersCutFrom (cut : Fault → Prop) (doc doc' : Document) : Prop where
  root : ∀ token token' pos path request,
    Cutoff cut (Session.askRoot doc token pos path request)
      (Session.askRoot doc' token' pos path request)
  sessions : ∀ {s t : Session}, Session.Reachable doc s → Session.Reachable doc' t →
    s.CutFrom cut t

theorem Document.CutFrom.answers {doc doc' : Document} (h : doc.CutFrom cut doc')
    (hlevels : doc.Levels cut doc' doc.options.maxDepth doc'.options.maxDepth) :
    doc.AnswersCutFrom cut doc' where
  root token token' pos path request := by
    rw [Session.askRoot_eq, Session.askRoot_eq]
    exact (h.read "root" (.record .root) (.refl pos)).bind (h.ask hlevels path request)
  sessions {s t} hs ht := by
    obtain ⟨rfl, hssound, hsdepth⟩ := hs.sound
    obtain ⟨rfl, htsound, htdepth⟩ := ht.sound
    exact Session.cutFrom_of_sound h hlevels hssound hsdepth htsound htdepth

end FlatSyntax
