import Mathlib
import FlatSyntax.Proofs.Workspace

/-!
# Isolated sessions

A client turns from one session to another as it likes, and carries tokens, sequences and visitors
between them. The session that an action is on goes on as if the others were not there. An action
sees of the others only whether they exist and what their tokens are, and all that a walk leaves in a
visitor is what the visitor would find out again.

The proof runs two clients side by side (`Alike`): one takes all actions, and the other leaves out
those on other sessions. Sessions are compared when everything that nothing holds has been let go.
-/

namespace FlatSyntax

/-! ## Moves -/

namespace Session

variable {s : Session}

theorem openNode_passes (hs : s.Sound) (event : Event) :
    s.Passes ((Move.enter event).run.run s).2 := by
  cases hopen : (openNode event).run s with
  | mk r t =>
    have hreads := (openPlace_reading hs (.view (.node event.kind) event.pos)).reads
    have ht : (s.exec (openPlace (.view (.node event.kind) event.pos))).2 = t := by
      rw [openNode_eq] at hopen
      exact (Prod.mk.inj hopen).2
    rw [ht] at hreads
    have hrun : (Move.enter event).run.run s =
        (r.elim (pure ()) fun item => pin item.mark).run t := by
      unfold Move.run
      rw [run_bind, hopen]
      cases r <;> rfl
    rw [hrun]
    cases r with
    | none => exact hreads.steps.toPasses
    | some item =>
      exact hreads.steps.toPasses.trans (pin_passes hreads.sound (openNode_reads hs hopen).2.1)

theorem hold_passes (hs : s.Sound) (spot : Spot) : s.Passes ((Move.hold spot).run.run s).2 := by
  have hget : (get : StateM Session Session).run s = (s, s) := rfl
  unfold Move.run
  rw [run_bind, hget]
  cases hh : s.handle? spot.handle with
  | none => exact .refl hs
  | some held =>
    have hreads := (follow_reading hs (handle_holds hs hh) spot.path).reads
    cases hfound : s.exec (follow held spot.path) with
    | mk r t =>
      rw [hfound] at hreads
      have hrun : (follow held spot.path).run.run s = (r, t) := hfound
      simp only
      rw [run_bind, hrun]
      cases r with
      | error f => exact hreads.steps.toPasses
      | ok found =>
        cases found with
        | none => exact hreads.steps.toPasses
        | some d =>
          have hd := (follow_live hs hh hfound).2
          cases hview : d.view? with
          | none =>
            simp only [hview]
            exact hreads.steps.toPasses
          | some view =>
            have hitem := hd view.2.2 (Datum.object?_of_view? hview).1
            simp only [hview]
            exact hreads.steps.toPasses.trans (pin_passes hreads.sound hitem)

/-- Whatever is done with a session, it is sound and has its token. -/
theorem Move.passes (move : Move) (hs : s.Sound) (hdepth : s.depth = 0) :
    s.Passes (move.run.run s).2 := by
  cases move with
  | perform op => exact (perform_steps op hs hdepth).toPasses
  | hold spot => exact hold_passes hs spot
  | enter event => exact openNode_passes hs event
  | leave => exact (unpin_passes hs).1

theorem viewAt_passes (hs : s.Sound) (token : UInt32) (kind : ViewKind) (pos : Nat)
    (keep : Option String) : s.Passes (s.exec (viewAt token kind pos >>= keepAs keep)).2 := by
  have hsteps := (viewAt_reading hs token kind pos).bind_steps fun t d ht hd =>
    keepAs_steps ht.sound keep (hd d rfl)
  exact hsteps.toPasses

theorem joined_passes (hs : s.Sound) (handle other : String) :
    s.Passes (s.joined handle s other) := by
  have hlive : ∀ {handle element item}, s.heldSequence? handle = some (element, item) →
      s.heap.Live item := by
    intro handle element item h
    obtain ⟨d, hhandle, hsequence⟩ := Option.bind_eq_some_iff.mp h
    exact handle_holds hs hhandle item (Datum.object?_of_sequence? hsequence)
  unfold joined
  split
  · rename_i element item element' item' hfirst hsecond
    split
    · exact (concat_onlyReads hs (hlive hfirst) (hlive hsecond) s.token).reads.steps.toPasses
    · exact .refl hs
  · exact .refl hs

/-- What a visitor remembers of other walks does not show in a run of it. -/
theorem run_congr {α : Type} {v v' : Visitor} (h : v.plan = v'.plan)
    (callback : Event → Link → StateM Session α) (item : Link) (s : Session) :
    ((run v callback item).run s).1.calls = ((run v' callback item).run s).1.calls ∧
      ((run v callback item).run s).1.fault = ((run v' callback item).run s).1.fault ∧
      ((run v callback item).run s).2 = ((run v' callback item).run s).2 := by
  unfold run
  cases item.place with
  | sequence element pos => exact ⟨rfl, rfl, rfl⟩
  | view kind pos =>
    have hwalk : ∀ doc, (v.walk doc kind pos).1 = (v'.walk doc kind pos).1 := by
      intro doc
      rw [(v.walk_eq doc kind pos).1, (v'.walk_eq doc kind pos).1, h]
    have hplan : ∀ doc, (v.walk doc kind pos).2.plan = (v'.walk doc kind pos).2.plan := by
      intro doc
      rw [(v.walk_eq doc kind pos).2, (v'.walk_eq doc kind pos).2, h]
    simp only [run_bind, hwalk, hplan]
    exact ⟨rfl, rfl, rfl⟩

end Session

/-! ## Actions -/

namespace Action

/-- The session that an action is on. -/
def session : Action → Nat
  | .start _ _ | .compile _ => 0
  | .move i _ | .viewAt i _ _ _ _ | .concat i _ _ _ | .walk _ i _ _ => i

/-- What an action does to the session it is on. -/
def effect (w : Workspace) : Action → Session → Session
  | .move _ m, s => (m.run.run s).2
  | .viewAt _ owner kind pos keep, s =>
    (w.session? owner).elim s fun t =>
      (s.exec (Session.viewAt t.token kind pos >>= Session.keepAs keep)).2
  | .concat _ handle owner other, s =>
    (w.session? owner).elim s fun t => s.joined handle t other
  | _, s => s

/-- Whether an action opens a session or compiles a visitor. -/
def isNew : Action → Bool
  | .start _ _ | .compile _ => true
  | _ => false

/-- Whether an action is on a session, and only on it. -/
def isOn (j : Nat) : Action → Bool
  | .start _ _ | .compile _ => false
  | .move i _ | .viewAt i _ _ _ _ | .walk _ i _ _ => i == j
  | .concat i _ owner _ => i == j && owner == j

/-- What is left of actions if those on other sessions are not taken. -/
def restrict (j : Nat) (actions : List Action) : List Action :=
  actions.filter fun a => a.isNew || a.isOn j

/-- It changes the session it is on, and no other. -/
def ChangesOne (a : Action) : Prop :=
  ∀ c : Client, (c.act a).workspace = c.workspace.update a.session (a.effect c.workspace)

theorem viewAt_changesOne (session owner : Nat) (kind : ViewKind) (pos : Nat)
    (keep : Option String) : (viewAt session owner kind pos keep).ChangesOne :=
  fun c => c.workspace.exec_viewAt session owner kind pos keep

theorem start_or_changesOne (a : Action) :
    (∃ document opening, a = .start document opening) ∨ a.ChangesOne := by
  have hid : ∀ c : Client, c.workspace = c.workspace.update a.session fun s => s :=
    fun c => (c.workspace.update_id a.session).symm
  cases a with
  | start document opening => exact .inl ⟨document, opening, rfl⟩
  | compile keys =>
    refine .inr fun c => Eq.trans ?_ (hid c)
    rw [Client.act]
    split <;> rfl
  | move session move =>
    refine .inr fun c => ?_
    have hexec := c.workspace.exec_withSession session move.run
    exact congrArg Prod.snd hexec
  | viewAt session owner kind pos keep =>
    exact .inr (viewAt_changesOne session owner kind pos keep)
  | concat session handle owner other =>
    exact .inr fun c => c.workspace.exec_concatHeld session handle owner other
  | walk visitor session kind pos =>
    refine .inr fun c => Eq.trans ?_ (hid c)
    rw [Client.act]
    split <;> rfl

end Action

namespace Client

variable {c d : Client} {a : Action} {i j k : Nat}

/-- The sessions of a client are sound and settled, and have tokens of their own. -/
structure Sound (c : Client) : Prop where
  session : ∀ {i s}, c.workspace.session? i = some s → s.Sound ∧ s.depth = 0
  settled : ∀ {i s}, c.workspace.session? i = some s → s.collect = s
  token : ∀ {i s}, c.workspace.session? i = some s →
    ∃ n < c.workspace.started, s.token = UInt32.ofNat (n + 1)
  distinct : ∀ {i k s t}, c.workspace.session? i = some s → c.workspace.session? k = some t →
    s.token = t.token → i = k

/-- No more sessions than there are tokens have been started. -/
def Few (c : Client) : Prop := c.workspace.started ≤ wordModulus

/-- While there are tokens left, the next one is new. -/
theorem Sound.token_ne (hc : c.Sound) (hlt : c.workspace.started < wordModulus) {s : Session}
    (hs : c.workspace.session? i = some s) : s.token ≠ c.workspace.nextToken := by
  obtain ⟨n, hn, htoken⟩ := hc.token hs
  intro heq
  have hnat := congrArg UInt32.toNat (htoken.symm.trans heq)
  unfold Workspace.nextToken at hnat
  rw [UInt32.toNat_ofNat', UInt32.toNat_ofNat'] at hnat
  unfold wordModulus at hlt
  omega

theorem effect_passes (hc : c.Sound) (a : Action) {s : Session}
    (hs : c.workspace.session? a.session = some s) : s.Passes (a.effect c.workspace s) := by
  obtain ⟨hsound, hdepth⟩ := hc.session hs
  cases a with
  | start document opening => exact .refl hsound
  | compile keys => exact .refl hsound
  | move session move => exact move.passes hsound hdepth
  | viewAt session owner kind pos keep =>
    rw [Action.effect]
    cases c.workspace.session? owner with
    | none => exact .refl hsound
    | some t => exact Session.viewAt_passes hsound t.token kind pos keep
  | concat session handle owner other =>
    rw [Action.effect]
    cases ht : c.workspace.session? owner with
    | none => exact .refl hsound
    | some t =>
      rw [Option.elim_some]
      by_cases htoken : s.token = t.token
      · -- then the two are one session
        have howner := hc.distinct hs ht htoken
        change session = owner at howner
        subst howner
        cases hs.symm.trans ht
        exact Session.joined_passes hsound handle other
      · rw [Session.joined_foreign handle other htoken]
        exact .refl hsound
  | walk visitor session kind pos => exact .refl hsound

/-- What an action that opens no session makes of each session. -/
theorem session?_step (hact : a.ChangesOne) (k : Nat) :
    (c.step a).workspace.session? k =
      (if a.session = k then (c.workspace.session? k).map (a.effect c.workspace)
        else c.workspace.session? k).map Session.collect := by
  unfold step
  rw [Workspace.session?_settle, hact, Workspace.session?_update]

/-- Each session has passed to what it is after an action, and has let go of what nothing holds. -/
theorem passes_step (hc : c.Sound) (hact : a.ChangesOne) :
    ((c.step a).workspace.session? k = none ∧ c.workspace.session? k = none) ∨
      ∃ s t, c.workspace.session? k = some s ∧ s.Passes t ∧
        (c.step a).workspace.session? k = some t.collect := by
  rw [session?_step hact]
  cases hs : c.workspace.session? k with
  | none => exact .inl ⟨by simp, rfl⟩
  | some s =>
    right
    by_cases hk : a.session = k
    · refine ⟨s, a.effect c.workspace s, rfl, effect_passes hc a (hk ▸ hs), ?_⟩
      rw [if_pos hk]
      rfl
    · refine ⟨s, s, rfl, .refl (hc.session hs).1, ?_⟩
      rw [if_neg hk]
      rfl

theorem isSome_step (hact : a.ChangesOne) (k : Nat) :
    ((c.step a).workspace.session? k).isSome = (c.workspace.session? k).isSome := by
  rw [session?_step hact]
  split <;> simp

theorem session?_start (c : Client) (document : Document) (opening : Opening) (k : Nat) :
    (c.step (.start document opening)).workspace.session? k =
      (if k = c.workspace.sessions.size then
          Session.openWith? document opening c.workspace.nextToken
        else c.workspace.session? k).map Session.collect := by
  unfold step
  rw [Workspace.session?_settle]
  change Option.map _ ((c.workspace.openDocument document opening).2.session? k) = _
  rw [Workspace.openDocument_eq, Workspace.session?_push]

theorem started_step (hact : a.ChangesOne) :
    (c.step a).workspace.started = c.workspace.started := by
  unfold step
  rw [Workspace.started_settle, hact, Workspace.started_update]

theorem started_start (c : Client) (document : Document) (opening : Opening) :
    (c.step (.start document opening)).workspace.started =
      c.workspace.started + (opening.starts document).toNat := rfl

/-- An action starts at most one session. -/
theorem started_step_le (c : Client) (a : Action) :
    c.workspace.started ≤ (c.step a).workspace.started ∧
      (c.step a).workspace.started ≤ c.workspace.started + 1 := by
  rcases a.start_or_changesOne with ⟨document, opening, rfl⟩ | hact
  · rw [started_start]
    exact ⟨Nat.le_add_right .., Nat.add_le_add_left (Bool.toNat_le _) _⟩
  · rw [started_step hact]
    omega

/-- What the session is like that is opened, with the next token. -/
theorem session?_start_cases {c : Client} {document : Document} {opening : Opening} {s' : Session}
    (h : (c.step (.start document opening)).workspace.session? i = some s') :
    (∃ s, c.workspace.session? i = some s ∧ s' = s.collect) ∨
      i = c.workspace.sessions.size ∧ opening.starts document = true ∧
        ∃ t : Session, s' = t.collect ∧ t.Sound ∧ t.depth = 0 ∧
          t.token = c.workspace.nextToken := by
  rw [session?_start] at h
  split at h
  · rename_i hi
    obtain ⟨t, ht, rfl⟩ := Option.map_eq_some_iff.mp h
    exact .inr ⟨hi, Workspace.starts_of_openWith? ht, t, rfl, Session.openWith?_sound ht⟩
  · obtain ⟨s, hs, rfl⟩ := Option.map_eq_some_iff.mp h
    exact .inl ⟨s, hs, rfl⟩

/-- Opening a session keeps the client sound if there is a token for it. -/
theorem Sound.step_start (hc : c.Sound) (document : Document) (opening : Opening)
    (hfew : (c.step (.start document opening)).Few) :
    (c.step (.start document opening)).Sound := by
  unfold Few at hfew
  rw [started_start] at hfew
  -- a session that opens was started, so there was a token left for it
  have hnew : ∀ {i s}, opening.starts document = true → c.workspace.session? i = some s →
      s.token ≠ c.workspace.nextToken := by
    intro i s hstarts hs
    rw [hstarts] at hfew
    exact hc.token_ne hfew hs
  constructor
  · intro i s' h
    rcases session?_start_cases h with ⟨s, hs, rfl⟩ | ⟨_, _, t, rfl, hsound, hdepth, _⟩
    · exact ⟨(hc.session hs).1.collect, (hc.session hs).2⟩
    · exact ⟨hsound.collect, hdepth⟩
  · intro i s' h
    rcases session?_start_cases h with ⟨s, _, rfl⟩ | ⟨_, _, t, rfl, _⟩
    · exact s.collect_collect
    · exact t.collect_collect
  · intro i s' h
    rw [started_start]
    rcases session?_start_cases h with ⟨s, hs, rfl⟩ | ⟨_, hstarts, t, rfl, _, _, htoken⟩
    · obtain ⟨n, hn, htoken⟩ := hc.token hs
      exact ⟨n, hn.trans_le (Nat.le_add_right ..), htoken⟩
    · rw [hstarts]
      exact ⟨c.workspace.started, Nat.lt_succ_self _, htoken⟩
  · intro i k s' t' h h' heq
    rcases session?_start_cases h with ⟨s, hs, rfl⟩ | ⟨hi, hstarts, s, rfl, _, _, htoken⟩
    · rcases session?_start_cases h' with ⟨t, ht, rfl⟩ | ⟨_, hstarts, t, rfl, _, _, htoken⟩
      · exact hc.distinct hs ht heq
      · exact (hnew hstarts hs (heq.trans htoken)).elim
    · rcases session?_start_cases h' with ⟨t, ht, rfl⟩ | ⟨hk, _⟩
      · exact (hnew hstarts ht (heq.symm.trans htoken)).elim
      · exact hi.trans hk.symm

theorem Sound.step (hc : c.Sound) (a : Action) (hfew : (c.step a).Few) : (c.step a).Sound := by
  rcases a.start_or_changesOne with ⟨document, opening, rfl⟩ | hact
  · exact hc.step_start document opening hfew
  -- each session is there already, and has its token
  have hpassed : ∀ {i s'}, (c.step a).workspace.session? i = some s' →
      ∃ s t, c.workspace.session? i = some s ∧ s.Passes t ∧ s' = t.collect := by
    intro i s' hs'
    rcases passes_step hc hact with ⟨hnone, _⟩ | ⟨s, t, hs, ht, hstep⟩
    · rw [hnone] at hs'
      cases hs'
    · exact ⟨s, t, hs, ht, Option.some.inj (hs'.symm.trans hstep)⟩
  constructor
  · intro i s' hs'
    obtain ⟨s, t, hs, ht, rfl⟩ := hpassed hs'
    exact ⟨ht.sound.collect, ht.depth.trans (hc.session hs).2⟩
  · intro i s' hs'
    obtain ⟨s, t, hs, ht, rfl⟩ := hpassed hs'
    exact t.collect_collect
  · intro i s' hs'
    obtain ⟨s, t, hs, ht, rfl⟩ := hpassed hs'
    obtain ⟨n, hn, htoken⟩ := hc.token hs
    exact ⟨n, hn.trans_eq (started_step hact).symm, ht.token.trans htoken⟩
  · intro i k s' t' hs' ht' heq
    obtain ⟨s, u, hs, hu, rfl⟩ := hpassed hs'
    obtain ⟨t, v, ht, hv, rfl⟩ := hpassed ht'
    exact hc.distinct hs ht (hu.token.symm.trans (heq.trans hv.token))

theorem size_step (hact : a.ChangesOne) :
    (c.step a).workspace.sessions.size = c.workspace.sessions.size := by
  unfold step
  rw [Workspace.size_settle, hact, Workspace.size_update]

theorem size_start (c : Client) (document : Document) (opening : Opening) :
    (c.step (.start document opening)).workspace.sessions.size =
      c.workspace.sessions.size + 1 := by
  unfold step
  rw [Workspace.size_settle]
  exact Array.size_push ..

theorem run_concat (actions : List Action) (a : Action) :
    run (actions ++ [a]) = (run actions).step a := List.foldl_append

theorem started_run_le (actions : List Action) :
    (run actions).workspace.started ≤ actions.length := by
  induction actions using List.reverseRecOn with
  | nil => exact le_rfl
  | append_singleton actions a ih =>
    rw [run_concat, List.length_append]
    exact (started_step_le _ a).2.trans (Nat.add_le_add_right ih 1)

/-! ## Actions on other sessions -/

/-- An action on other sessions leaves a session as it is. -/
theorem session?_step_of_not_isOn (hc : c.Sound) (ha : a.isOn j = false) {s : Session}
    (hs : c.workspace.session? j = some s) :
    (c.step a).workspace.session? j = some s := by
  rcases a.start_or_changesOne with ⟨document, opening, rfl⟩ | hact
  · rw [session?_start, if_neg (Workspace.lt_size hs).ne, hs]
    exact congrArg some (hc.settled hs)
  · rw [session?_step hact, hs]
    have heffect : a.session = j → a.effect c.workspace s = s := by
      intro hj
      cases a with
      | start document opening => rfl
      | compile keys => rfl
      | move session move => simp [Action.isOn, ← hj, Action.session] at ha
      | viewAt session owner kind pos keep => simp [Action.isOn, ← hj, Action.session] at ha
      | concat session handle owner other =>
        -- the other sequence is of another session, which has another token
        change session = j at hj
        subst hj
        have howner : owner ≠ session := by simpa [Action.isOn] using ha
        rw [Action.effect]
        cases ht : c.workspace.session? owner with
        | none => rfl
        | some t =>
          refine Session.joined_foreign handle other fun htoken => ?_
          exact howner (hc.distinct hs ht htoken).symm
      | walk visitor session kind pos => rfl
    split
    · rename_i hj
      simp only [Option.map_some, heffect hj, hc.settled hs]
    · simp only [Option.map_some, hc.settled hs]

/-! ## Visitors -/

theorem plans_step (c : Client) (ha : a.isNew = false) :
    (c.step a).visitors.map Visitor.plan = c.visitors.map Visitor.plan := by
  change (c.act a).visitors.map Visitor.plan = _
  cases a with
  | start document opening => cases ha
  | compile keys => cases ha
  | move session move => rfl
  | viewAt session owner kind pos keep => rfl
  | concat session handle owner other => rfl
  | walk visitor session kind pos =>
    rw [act]
    split
    · refine List.ext_getElem (by simp) fun k hk hk' => ?_
      simp only [List.getElem_map, List.getElem_modify]
      split
      · exact (Visitor.walk_eq ..).2
      · rfl
    · rfl

theorem plans_step_congr (h : c.visitors.map Visitor.plan = d.visitors.map Visitor.plan)
    (a : Action) :
    (c.step a).visitors.map Visitor.plan = (d.step a).visitors.map Visitor.plan := by
  cases hnew : a.isNew with
  | false => rw [plans_step c hnew, plans_step d hnew, h]
  | true =>
    cases a with
    | start document opening => exact h
    | compile keys =>
      change ((c.act _).visitors).map _ = ((d.act _).visitors).map _
      rw [act, act]
      split
      · simp only [List.map_append, h]
      · exact h
    | _ => cases hnew

/-! ## Runs that differ in other sessions -/

/-- Clients with as many sessions and visitors, to which one session is the same. -/
structure Alike (j : Nat) (c d : Client) : Prop where
  size : c.workspace.sessions.size = d.workspace.sessions.size
  started : c.workspace.started = d.workspace.started
  token : ∀ i, (c.workspace.session? i).map Session.token =
    (d.workspace.session? i).map Session.token
  session : c.workspace.session? j = d.workspace.session? j
  plans : c.visitors.map Visitor.plan = d.visitors.map Visitor.plan

theorem token_step (hc : c.Sound) (hact : a.ChangesOne) (i : Nat) :
    ((c.step a).workspace.session? i).map Session.token =
      (c.workspace.session? i).map Session.token := by
  rcases passes_step (k := i) hc hact with ⟨hnone, hnone'⟩ | ⟨s, t, hs, ht, hstep⟩
  · rw [hnone, hnone']
  · rw [hstep, hs]
    exact congrArg some ht.token

/-- Only the one client takes an action that is on other sessions. -/
theorem Alike.step_left (h : Alike j c d) (hc : c.Sound) (hnew : a.isNew = false)
    (ha : a.isOn j = false) : Alike j (c.step a) d := by
  rcases a.start_or_changesOne with ⟨document, opening, rfl⟩ | hact
  · cases hnew
  constructor
  · exact (size_step hact).trans h.size
  · exact (started_step hact).trans h.started
  · exact fun i => (token_step hc hact i).trans (h.token i)
  · rw [← h.session]
    cases hs : c.workspace.session? j with
    | none =>
      have hsome := isSome_step (c := c) hact j
      rw [hs] at hsome
      exact Option.isNone_iff_eq_none.mp (by simpa using hsome)
    | some s => exact session?_step_of_not_isOn hc ha hs
  · exact (plans_step c hnew).trans h.plans

theorem Alike.effect (h : Alike j c d) (hj : a.session = j) (ha : a.isNew || a.isOn j)
    (s : Session) : a.effect c.workspace s = a.effect d.workspace s := by
  cases a with
  | start document opening => rfl
  | compile keys => rfl
  | move session move => rfl
  | viewAt session owner kind pos keep =>
    have howner := h.token owner
    rw [Action.effect, Action.effect]
    cases ht : c.workspace.session? owner with
    | none =>
      cases ht' : d.workspace.session? owner with
      | none => rfl
      | some t' => simp [ht, ht'] at howner
    | some t =>
      cases ht' : d.workspace.session? owner with
      | none => simp [ht, ht'] at howner
      | some t' =>
        have htoken : t.token = t'.token := by simpa [ht, ht'] using howner
        rw [Option.elim_some, Option.elim_some, htoken]
  | concat session handle owner other =>
    change session = j at hj
    have howner : owner = j := by
      have hboth : session = j ∧ owner = j := by simpa [Action.isNew, Action.isOn] using ha
      exact hboth.2
    rw [Action.effect, Action.effect, howner, h.session]
  | walk visitor session kind pos => rfl

/-- Both clients take an action. -/
theorem Alike.step (h : Alike j c d) (hc : c.Sound) (hd : d.Sound)
    (ha : a.isNew || a.isOn j) : Alike j (c.step a) (d.step a) := by
  rcases a.start_or_changesOne with ⟨document, opening, rfl⟩ | hact
  · have hnext : c.workspace.nextToken = d.workspace.nextToken :=
      congrArg (fun n => UInt32.ofNat (n + 1)) h.started
    constructor
    · rw [size_start, size_start, h.size]
    · rw [started_start, started_start, h.started]
    · intro i
      rw [session?_start, session?_start, hnext, h.size]
      split
      · rfl
      · rw [Option.map_map, Option.map_map]
        exact h.token i
    · rw [session?_start, session?_start, hnext, h.size, h.session]
    · exact plans_step_congr h.plans _
  · constructor
    · rw [size_step hact, size_step hact, h.size]
    · rw [started_step hact, started_step hact, h.started]
    · intro i
      rw [token_step hc hact, token_step hd hact, h.token]
    · rw [session?_step hact, session?_step hact, h.session]
      split
      · rename_i hj
        rw [funext (h.effect hj ha)]
      · rfl
    · exact plans_step_congr h.plans _

/-- A run, and what is left of it if the actions on other sessions are not taken. -/
theorem run_alike (j : Nat) (actions : List Action) (hfew : (run actions).Few) :
    (run actions).Sound ∧ (run (Action.restrict j actions)).Sound ∧
      Alike j (run actions) (run (Action.restrict j actions)) := by
  induction actions using List.reverseRecOn with
  | nil =>
    have hempty : (run []).Sound := by
      constructor <;> exact nofun
    exact ⟨hempty, hempty, rfl, rfl, fun _ => rfl, rfl, rfl⟩
  | append_singleton actions a ih =>
    rw [run_concat] at hfew ⊢
    obtain ⟨hsound, hsound', halike⟩ := ih ((started_step_le _ a).1.trans hfew)
    refine ⟨hsound.step a hfew, ?_⟩
    cases ha : a.isNew || a.isOn j with
    | true =>
      have hrestrict : Action.restrict j (actions ++ [a]) = Action.restrict j actions ++ [a] := by
        simp [Action.restrict, ha]
      have hnext := halike.step hsound hsound' ha
      rw [hrestrict, run_concat]
      exact ⟨hsound'.step a (hnext.started.symm.trans_le hfew), hnext⟩
    | false =>
      have hrestrict : Action.restrict j (actions ++ [a]) = Action.restrict j actions := by
        simp [Action.restrict, ha]
      rw [Bool.or_eq_false_iff] at ha
      rw [hrestrict]
      exact ⟨hsound', halike.step_left hsound ha.1 ha.2⟩

/-- After these actions, no session can tell what was done with the others. -/
structure Isolated (actions : List Action) : Prop where
  /-- No two sessions have the same token. -/
  token : ∀ {i k s t}, (run actions).workspace.session? i = some s →
    (run actions).workspace.session? k = some t → s.token = t.token → i = k
  /-- A view asked for with the token of another session is refused, and nothing has changed. -/
  view : ∀ {i k s t}, i ≠ k → (run actions).workspace.session? i = some s →
    (run actions).workspace.session? k = some t → ∀ kind pos keep,
      (run actions).workspace.exec (Workspace.viewAt i k kind pos keep) =
        (.error (.fault .foreignSession), (run actions).workspace)
  /-- So are the elements of a sequence followed by those of a sequence of another session. -/
  concat : ∀ {i k s t}, i ≠ k → (run actions).workspace.session? i = some s →
    (run actions).workspace.session? k = some t →
    ∀ {other element item'}, t.heldSequence? other = some (element, item') → ∀ item,
      (run actions).workspace.exec
          (Workspace.concat i element item (some { session := k, handle := other })) =
        (.error (.fault .foreignSession), (run actions).workspace)
  /-- An action on other sessions leaves a session with all that is in it. -/
  step : ∀ {a j s}, Action.isOn j a = false → (run actions).workspace.session? j = some s →
    ((run actions).step a).workspace.session? j = some s
  /-- The actions on other sessions need not have been taken at all. -/
  session : ∀ j, (run (Action.restrict j actions)).workspace.session? j =
    (run actions).workspace.session? j
  /-- Without them as many views have been constructed, and as many are live. -/
  counts : ∀ j,
    ((run (Action.restrict j actions)).workspace.session? j).map
        (fun s => (s.heap.constructed, s.heap.liveViews)) =
      ((run actions).workspace.session? j).map fun s => (s.heap.constructed, s.heap.liveViews)
  /-- Then whatever is done next in the session has the result that it has. -/
  result : ∀ {α : Type} (j : Nat) (next : StateM Session α),
    ((run (Action.restrict j actions)).workspace.exec (Workspace.withSession j next)).1 =
      ((run actions).workspace.exec (Workspace.withSession j next)).1
  /-- That includes runs of the visitors, which may have walked in the other sessions. -/
  visit : ∀ {α : Type} (j k : Nat) (callback : Event → Link → StateM Session α) item s,
    ((run (Action.restrict j actions)).visitors[k]?.map fun v =>
        let r := (Session.run v callback item).run s
        (r.1.calls, r.1.fault, r.2)) =
      (run actions).visitors[k]?.map fun v =>
        let r := (Session.run v callback item).run s
        (r.1.calls, r.1.fault, r.2)

/-- While there are tokens for all of them, sessions are isolated. -/
theorem isolated_of_few {actions : List Action} (hfew : (run actions).Few) :
    Isolated actions := by
  have hrun := fun j => run_alike j actions hfew
  have hsound := (hrun 0).1
  have hne : ∀ {i k s t}, i ≠ k → (run actions).workspace.session? i = some s →
      (run actions).workspace.session? k = some t → s.token ≠ t.token :=
    fun hik hs ht htoken => hik (hsound.distinct hs ht htoken)
  constructor
  · exact hsound.distinct
  · exact fun hik hs ht => Workspace.exec_viewAt_foreign hs ht (hne hik hs ht)
  · exact fun hik hs ht _ _ _ he item =>
      Workspace.exec_concat_foreign hs ht (hne hik hs ht) he item
  · exact fun ha hs => session?_step_of_not_isOn hsound ha hs
  · exact fun j => (hrun j).2.2.session.symm
  · exact fun j => by rw [(hrun j).2.2.session]
  · intro α j next
    rw [Workspace.exec_withSession, Workspace.exec_withSession, (hrun j).2.2.session]
  · intro α j k callback item s
    have hplan := congrArg (·[k]?) (hrun j).2.2.plans
    simp only [List.getElem?_map] at hplan
    cases hv : (run actions).visitors[k]? with
    | none =>
      rw [hv] at hplan
      rw [Option.map_eq_none_iff.mp hplan.symm]
    | some v =>
      rw [hv] at hplan
      obtain ⟨v', hv', hsame⟩ := Option.map_eq_some_iff.mp hplan.symm
      obtain ⟨hcalls, hfault, hsession⟩ := Session.run_congr hsame callback item s
      simp only [hv', Option.map_some, hcalls, hfault, hsession]

/-- Two sessions of one document, and between them one that is started and fails to open, since its
root record does not fit. Each holds a view, and the last also asks with the token of the first. -/
def twoSessions : List Action :=
  [.start (Document.zeros 64) .bare, .start (Document.zeros 64) (.root 0),
    .start (Document.zeros 64) .bare,
    .viewAt 0 0 (.node .nullLiteral) 0 (some "value"),
    .viewAt 2 2 (.node .nullLiteral) 8 (some "value"),
    .viewAt 2 0 (.node .nullLiteral) 16 (some "other")]

theorem started_twoSessions : (run twoSessions).workspace.started = 3 := by
  have hview := Action.viewAt_changesOne
  have hrun : run twoSessions = (((run (twoSessions.take 3)).step _).step _).step _ := rfl
  rw [hrun, started_step (hview _ _ _ _ _), started_step (hview _ _ _ _ _),
    started_step (hview _ _ _ _ _)]
  rfl

theorem isSome_twoSessions {i : Nat} (hi : i < 3) :
    ((run twoSessions).workspace.session? i).isSome = (i != 1) := by
  have hview := Action.viewAt_changesOne
  have hrun : run twoSessions = (((run (twoSessions.take 3)).step _).step _).step _ := rfl
  rw [hrun, isSome_step (hview _ _ _ _ _), isSome_step (hview _ _ _ _ _),
    isSome_step (hview _ _ _ _ _)]
  have hstart : run (twoSessions.take 3) = ((Client.step {} _).step _).step _ := rfl
  rw [hstart, session?_start, session?_start, session?_start, size_start, size_start,
    Option.isSome_map]
  interval_cases i <;> rfl

theorem isolated_of_two : (run twoSessions).Few ∧ Isolated twoSessions ∧
    (run twoSessions).workspace.started = 3 ∧ (run twoSessions).workspace.session? 1 = none ∧
    ∀ kind pos keep, (run twoSessions).workspace.exec (Workspace.viewAt 0 2 kind pos keep) =
      (.error (.fault .foreignSession), (run twoSessions).workspace) := by
  have hfew : (run twoSessions).Few := (started_run_le twoSessions).trans (by decide)
  obtain ⟨s, hs⟩ := Option.isSome_iff_exists.mp (isSome_twoSessions (i := 0) (by decide))
  obtain ⟨t, ht⟩ := Option.isSome_iff_exists.mp (isSome_twoSessions (i := 2) (by decide))
  have hfailed : (run twoSessions).workspace.session? 1 = none := by
    rw [← Option.not_isSome_iff_eq_none, isSome_twoSessions (i := 1) (by decide)]
    decide
  have hisolated := isolated_of_few hfew
  exact ⟨hfew, hisolated, started_twoSessions, hfailed, hisolated.view (by decide) hs ht⟩

end Client

end FlatSyntax
