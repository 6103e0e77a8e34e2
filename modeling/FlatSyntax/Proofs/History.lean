import Mathlib
import FlatSyntax.Proofs.DocumentReads
import FlatSyntax.Proofs.Operation
import FlatSyntax.Workspace.Visit

/-!
# What a session has read does not show

Slots that have been filled, objects that are found instead of built, the level of projection and
what a visitor remembers are left behind by earlier operations. None of it shows in an answer: every
read gives in a session with any history what it gives in a session that has just been opened, up to
which object it is. Both give what the document alone gives.
-/

namespace FlatSyntax

/-! ## What callbacks see -/

/-- What a callback sees, from the document alone. -/
def Detail.sight (detail : Detail) (doc : Document) (event : Event) : Sight :=
  match detail with
  | .offset => .offset event.pos
  | .span => .span (doc.span event.pos)
  | .text => .text (doc.nodeText event.pos)
  | .plain =>
    .plain (Projection.project doc doc.access (.node event.kind)
      (.object ⟨.view (.node event.kind) event.pos,
        ⟨event.pos, (ViewKind.node event.kind).fields.length⟩, ()⟩))

namespace Session

variable {doc : Document} {s f : Session}

theorem look_answers (doc : Document) (detail : Detail) :
    Answers doc detail.look (detail.sight doc) := by
  intro s event item hs hdoc hdepth hi hplace
  cases detail with
  | offset => exact ⟨.refl hs, rfl⟩
  | span =>
    refine ⟨.refl hs, ?_⟩
    change Sight.span (s.document.span event.pos) = .span (doc.span event.pos)
    rw [hdoc]
  | text =>
    have hex : s.exec (sourceText event.pos) = (doc.nodeText event.pos, s) := by
      unfold sourceText
      rw [exec_bind_ok s (exec_get s), exec_ofExcept, hdoc]
    refine ⟨?_, ?_⟩
    · change s.Steps (s.exec (sourceText event.pos)).2
      rw [hex]
      exact .refl hs
    · change Sight.text (s.exec (sourceText event.pos)).1 = .text (doc.nodeText event.pos)
      rw [hex]
  | plain =>
    have hd : s.heap.Holds (.object item) := fun other hother => Option.some.inj hother ▸ hi
    obtain ⟨hreads, hout⟩ := project_reading hs hdepth item.place.layout hd
    refine ⟨hreads.steps, ?_⟩
    change Sight.plain (s.exec (project item.place.layout (.object item))).1 = _
    have hopen := hs.heap.openPlace_eq hi
    rw [hplace, hdoc] at hopen
    rw [hout.eq_of_eq, hdoc, hplace]
    change Sight.plain
      (Projection.project doc doc.access (.node event.kind) (.object item.erase)) = _
    rw [(openPlace_view hopen).2]
    rfl

/-! ## Answers -/

/-- Two outcomes that match the same one are the same, as far as `F` and `G` tell. -/
theorem Matches.map_eq {α β γ δ : Type} {R : α → γ → Prop} {R' : β → γ → Prop}
    {r : Except Fault α} {r' : Except Fault β} {y : Except Fault γ} {F : α → δ} {G : β → δ}
    (h : Matches R r y) (h' : Matches R' r' y)
    (heq : ∀ a b c, R a c → R' b c → F a = G b) : r.map F = r'.map G := by
  cases h with
  | error f =>
    cases h'
    rfl
  | ok h =>
    cases h' with
    | ok h' => exact congrArg Except.ok (heq _ _ _ h h')

theorem Agrees.erase_eq {d e : Datum Link} {c : Datum (Item Unit)} (h : s.Agrees d c)
    (h' : f.Agrees e c) : d.erase = e.erase := h.2.trans h'.2.symm

theorem erase_eq_of_rel {d e : Option (Datum Link)} {c : Option (Datum (Item Unit))}
    (h : Option.Rel s.Agrees d c) (h' : Option.Rel f.Agrees e c) :
    d.map Datum.erase = e.map Datum.erase := by
  cases h with
  | none =>
    cases h'
    rfl
  | some h =>
    cases h' with
    | some h' => exact congrArg some (h.erase_eq h')

/-- What a session holds, opened again. -/
def reopen (d : Datum Link) : SessionM (Datum Link) := d.traverse fun item => openPlace item.place

/-- What one session holds and what another holds give the same answers. -/
structure Twins (s : Session) (d : Datum Link) (f : Session) (e : Datum Link) : Prop where
  /-- They are the same up to which object it is. -/
  same : d.erase = e.erase
  /-- Fields, elements and what they lead to. -/
  follow : ∀ path, (s.exec (follow d path)).1.map (Option.map Datum.erase) =
    (f.exec (Session.follow e path)).1.map (Option.map Datum.erase)
  /-- Plain values. -/
  project : ∀ layout, (s.exec (project layout d)).1 = (f.exec (Session.project layout e)).1
  /-- Runs of visitors, one reused and the other just compiled. -/
  run : ∀ {keys : List String} {fresh visitor : Visitor} (detail : Detail) {x y : Link},
    Visitor.compile keys = .ok fresh → fresh.Reused visitor →
    d.object? = some x → e.object? = some y →
    ((run visitor detail.look x).run s).1.calls =
        ((Session.run fresh detail.look y).run f).1.calls ∧
      ((Session.run visitor detail.look x).run s).1.fault =
        ((Session.run fresh detail.look y).run f).1.fault

/-- Reads in a session with a history and in a fresh one give the same answers. -/
structure AnswersLike (s f : Session) : Prop where
  /-- Reading any layout anywhere. -/
  decode : ∀ field layout pos, (s.exec (decode field layout pos)).1.map Datum.erase =
    (f.exec (Session.decode field layout pos)).1.map Datum.erase
  /-- Asking for a view, each with its own token. -/
  viewAt : ∀ kind pos, (s.exec (viewAt s.token kind pos)).1.map Datum.erase =
    (f.exec (Session.viewAt f.token kind pos)).1.map Datum.erase
  /-- Whatever the session holds. -/
  held : ∀ {d}, s.heap.Holds d → ∃ e g, f.exec (reopen d) = (.ok e, g) ∧ s.Twins d g e
  /-- However a projection ends, the level is what it was before. -/
  level : ∀ layout {d}, s.heap.Holds d → (s.exec (project layout d)).2.depth = s.depth
  /-- A read that fails leaves its slot empty. -/
  fault : ∀ {item index fault t}, s.heap.Live item → s.exec (slot item index) = (.error fault, t) →
    t.heap.slot? item.mark index = none

/-- Sessions over one document in which nothing is being projected answer alike about things that
are the same up to which object it is. -/
theorem twins_of_erase {d e : Datum Link} (hdoc : f.document = s.document) (hs : s.Sound)
    (hf : f.Sound) (hsd : s.depth = 0) (hfd : f.depth = 0) (hd : s.heap.Holds d)
    (he : f.heap.Holds e) (hsame : d.erase = e.erase) : s.Twins d f e where
  same := hsame
  follow path := by
    have hout := (follow_reading hs hd path).outcome
    have hout' := (follow_reading hf he path).outcome
    rw [hdoc, ← hsame] at hout'
    exact hout.map_eq hout' fun _ _ _ h h' => erase_eq_of_rel h h'
  project layout := by
    have hout := (project_reading hs hsd layout hd).outcome
    have hout' := (project_reading hf hfd layout he).outcome
    rw [hdoc, ← hsame] at hout'
    rw [hout.eq_of_eq, hout'.eq_of_eq]
  run {keys fresh visitor} detail {x y} hcompile hreused hx hy := by
    have hxe : d.erase.object? = some x.erase := by
      rw [Datum.erase, Datum.object?_map, hx]
      rfl
    have hye : e.erase.object? = some y.erase := by
      rw [Datum.erase, Datum.object?_map, hy]
      rfl
    have hplace : x.place = y.place := by
      rw [hsame, hye] at hxe
      exact (congrArg (fun e : Item Unit => e.place) (Option.some.inj hxe)).symm
    cases hp : x.place with
    | sequence element pos =>
      have hp' := hplace.symm.trans hp
      unfold Session.run
      rw [hp, hp']
      exact ⟨rfl, rfl⟩
    | view kind pos =>
      obtain ⟨_, hcalls, hfault⟩ := run_run (look_answers s.document detail) hs hsd (hd x hx) hp
        visitor
      obtain ⟨_, hcalls', hfault'⟩ := run_run (look_answers f.document detail) hf hfd (he y hy)
        (hplace.symm.trans hp) fresh
      rw [hcalls, hfault, hcalls', hfault', hreused.plan_eq, hdoc]
      exact ⟨rfl, rfl⟩

/-- What a session holds can be opened in any other over the same document. -/
theorem exec_reopen {d : Datum Link} (hdoc : f.document = s.document) (hs : s.Sound) (hf : f.Sound)
    (hd : s.heap.Holds d) :
    ∃ e g, f.exec (reopen d) = (.ok e, g) ∧ f.Reads g ∧ g.heap.Holds e ∧ d.erase = e.erase := by
  unfold reopen
  cases ho : d.object? with
  | none =>
    refine ⟨d.map id, f, ?_, .refl hf, ?_, ?_⟩
    · rw [Datum.traverse_of_none ho _ id, exec_pure]
    · intro item hi
      rw [Datum.object?_map, ho] at hi
      cases hi
    · rw [Datum.erase, Datum.erase, Datum.map_map]
      rfl
  | some item =>
    obtain ⟨hreads, hout⟩ := openPlace_reading hf item.place
    rw [hdoc, hs.heap.openPlace_eq (hd item ho)] at hout
    rw [Datum.traverse_of_some ho, map_eq_pure_bind]
    generalize hr : f.exec (openPlace item.place) = r at hreads hout
    obtain ⟨r, g⟩ := r
    cases hout with
    | @ok twin _ h =>
      refine ⟨d.map fun _ => twin, g, ?_, hreads, ?_, ?_⟩
      · rw [exec_bind_ok f hr, exec_pure]
      · intro other hother
        rw [Datum.object?_map, ho] at hother
        exact Option.some.inj hother ▸ h.1
      · have htwin : twin.erase = item.erase := h.2
        rw [Datum.erase, Datum.erase, Datum.map_map, Datum.map_of_some ho Item.erase, ← htwin]
        rfl

theorem viewAt_answer (hs : s.Sound) (kind : ViewKind) (pos : Nat) :
    (s.exec (viewAt s.token kind pos)).1.map Datum.erase =
      (s.document.openPlace (.view kind pos)).map Datum.object := by
  have hout := (openPlace_reading hs (.view kind pos)).outcome
  unfold viewAt
  rw [exec_bind_ok s (exec_get s), if_pos rfl, exec_bind]
  generalize s.exec (openPlace (.view kind pos)) = r at hout
  generalize s.document.openPlace (.view kind pos) = y at hout
  obtain ⟨r, t⟩ := r
  cases hout with
  | ok h => exact congrArg (fun e => Except.ok (Datum.object e)) h.2
  | error f => rfl

/-- Whatever has happened in a session of a document, reads answer as in a fresh one. -/
theorem answersLike_of_reachable (h : Reachable doc s) (token : UInt32) :
    s.AnswersLike (.start doc token) := by
  obtain ⟨hdoc, hs, hdepth⟩ := h.sound
  have hf : (Session.start doc token).Sound := .start doc token
  have hdoc' : (Session.start doc token).document = s.document := hdoc.symm
  constructor
  · intro field layout pos
    have hout := (decode_reading hs field layout pos).outcome
    have hout' := (decode_reading hf field layout pos).outcome
    rw [hdoc'] at hout'
    exact hout.map_eq hout' fun _ _ _ h h' => h.erase_eq h'
  · intro kind pos
    rw [viewAt_answer hs, viewAt_answer hf, hdoc']
  · intro d hd
    obtain ⟨e, g, hex, hreads, he, hsame⟩ := exec_reopen hdoc' hs hf hd
    exact ⟨e, g, hex, twins_of_erase (hreads.grows.document.trans hdoc') hs hreads.sound hdepth
      hreads.grows.depth hd he hsame⟩
  · intro layout d hd
    exact (project_reading hs hdepth layout hd).reads.grows.depth
  · exact fun hi h => slot_error hs hi h

/-- A session in which a view was asked for and projected. -/
theorem answersLike_after_projection :
    AnswersLike ((perform (.project ⟨"a", []⟩)).run
      ((perform (.viewAt 1 (.node .nullLiteral) 0 (some "a"))).run
        (.start (.zeros 64) 1)).2).2
      (.start (.zeros 64) 2) :=
  answersLike_of_reachable (.bare 1 (.step (.step .refl _) _)) 2

end Session

end FlatSyntax
