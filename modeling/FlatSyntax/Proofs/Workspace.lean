import Mathlib
import FlatSyntax.Proofs.Identity
import FlatSyntax.Workspace.Client

/-!
# Operations on a workspace

An operation on a workspace looks sessions up and changes one of them at most. So what it does to the
workspace is told by what it does to that session (`update`), and by what it looks up in others: a
token, or a sequence that is held.

Tokens are numbers of sessions. They are given by counting the sessions that were started before.
-/

namespace FlatSyntax

/-! ## Letting go twice -/

theorem Heap.collect_collect (h : Heap) (roots : List Nat) :
    (h.collect roots).collect roots = h.collect roots := by
  induction h using collect.induct roots with
  | case1 h swept hlt ih =>
    have hswept : h.collect roots = swept.collect roots := by rw [collect, if_pos hlt]
    rw [hswept]
    exact ih
  | case2 h swept hlt =>
    have hself : h.collect roots = h := by rw [collect, if_neg hlt]
    rw [hself, hself]

theorem Session.collect_collect (s : Session) : s.collect.collect = s.collect := by
  have hroots : s.collect.roots = s.roots := rfl
  have hheap := s.heap.collect_collect s.roots
  rw [← hroots] at hheap
  exact congrArg (fun heap => { s with heap }) hheap

/-! ## Single sessions of a workspace -/

namespace Workspace

variable {w v : Workspace} {i k : Nat} {α β : Type}

theorem session?_of_lt (hi : i < w.sessions.size) : w.session? i = w.sessions[i] := by
  unfold session?
  rw [Array.getElem?_eq_getElem hi]
  rfl

theorem lt_size {s : Session} (hs : w.session? i = some s) : i < w.sessions.size := by
  by_contra hge
  simp [session?, hge] at hs

theorem ext_session? (hsize : w.sessions.size = v.sessions.size) (hstarted : w.started = v.started)
    (h : ∀ i, w.session? i = v.session? i) : w = v := by
  obtain ⟨sessions, started⟩ := w
  obtain ⟨sessions', started'⟩ := v
  obtain rfl : sessions = sessions' := by
    refine Array.ext hsize fun i hi hi' => ?_
    have hentry := h i
    rwa [session?_of_lt hi, session?_of_lt hi'] at hentry
  obtain rfl : started = started' := hstarted
  rfl

/-- Changes a session, if it exists. -/
def update (w : Workspace) (i : Nat) (f : Session → Session) : Workspace :=
  { w with sessions := w.sessions.modify i (Option.map f) }

@[simp] theorem started_update (w : Workspace) (i : Nat) (f : Session → Session) :
    (w.update i f).started = w.started := rfl

@[simp] theorem size_update (w : Workspace) (i : Nat) (f : Session → Session) :
    (w.update i f).sessions.size = w.sessions.size := by
  simp [update]

theorem session?_update (w : Workspace) (i : Nat) (f : Session → Session) (k : Nat) :
    (w.update i f).session? k = if i = k then (w.session? k).map f else w.session? k := by
  simp only [update, session?, Array.getElem?_modify]
  split
  · cases w.sessions[k]? with
    | none => rfl
    | some entry => cases entry <;> rfl
  · rfl

theorem update_congr {f g : Session → Session} (h : ∀ s, w.session? i = some s → f s = g s) :
    w.update i f = w.update i g := by
  refine ext_session? (by simp) rfl fun k => ?_
  rw [session?_update, session?_update]
  split
  · rename_i hk
    subst hk
    cases hs : w.session? i with
    | none => rfl
    | some s => exact congrArg some (h s hs)
  · rfl

theorem update_id (w : Workspace) (i : Nat) : (w.update i fun s => s) = w := by
  refine ext_session? (by simp) rfl fun k => ?_
  rw [session?_update]
  split
  · exact Option.map_id' ..
  · rfl

theorem update_update (w : Workspace) (i : Nat) (f g : Session → Session) :
    (w.update i f).update i g = w.update i fun s => g (f s) := by
  refine ext_session? (by simp) rfl fun k => ?_
  simp only [session?_update]
  split
  · cases w.session? k <;> rfl
  · rfl

theorem update_of_none (h : w.session? i = none) (f : Session → Session) : w.update i f = w := by
  have hsame : ∀ s, w.session? i = some s → f s = s := by
    intro s hs
    rw [h] at hs
    cases hs
  rw [update_congr hsame, update_id]

/-! ## Operations on a workspace -/

/-- The outcome of an operation that may be refused, and the workspace after it. -/
def exec (w : Workspace) (x : WorkspaceM α) : Except Refusal α × Workspace := x.run.run w

theorem exec_bind (w : Workspace) (x : WorkspaceM α) (f : α → WorkspaceM β) :
    w.exec (x >>= f) =
      match w.exec x with
      | (.ok a, v) => v.exec (f a)
      | (.error r, v) => (.error r, v) := by
  change (ExceptT.bindCont f (w.exec x).1).run (w.exec x).2 = _
  obtain ⟨r, v⟩ := w.exec x
  cases r <;> rfl

theorem exec_session (w : Workspace) (i : Nat) :
    w.exec (session i) =
      match w.session? i with
      | some s => (.ok s, w)
      | none => (.error .noSession, w) := by
  unfold session
  rw [exec_bind]
  change w.exec (match w.session? i with
    | some s => pure s
    | none => throw .noSession) = _
  cases w.session? i <;> rfl

theorem exec_withSession (w : Workspace) (i : Nat) (act : StateM Session α) :
    w.exec (withSession i act) =
      (match w.session? i with
        | some s => .ok (act.run s).1
        | none => .error .noSession,
      w.update i fun s => (act.run s).2) := by
  unfold withSession
  rw [exec_bind, exec_session]
  cases hs : w.session? i with
  | none => rw [update_of_none hs]
  | some s =>
    change (_, { w with sessions := w.sessions.setIfInBounds i (some (act.run s).2) }) = _
    refine Prod.ext rfl (ext_session? (by simp) rfl fun k => ?_)
    rw [session?_update]
    by_cases hk : i = k
    · subst hk
      have hlt := lt_size hs
      rw [if_pos rfl, hs]
      simp [session?, hlt]
    · simp [session?, hk]

theorem exec_within (w : Workspace) (i : Nat) (act : SessionM α) :
    w.exec (within i act) =
      (match w.session? i with
        | some s => (s.exec act).1.mapError .fault
        | none => .error .noSession,
      w.update i fun s => (s.exec act).2) := by
  unfold within
  rw [exec_bind, exec_withSession]
  cases w.session? i with
  | none => rfl
  | some s =>
    have hrun : act.run.run s = s.exec act := rfl
    simp only [hrun]
    cases (s.exec act).1 <;> rfl

theorem exec_within_fault {s : Session} (hs : w.session? i = some s) {act : SessionM α} {f : Fault}
    (h : s.exec act = (.error f, s)) : w.exec (within i act) = (.error (.fault f), w) := by
  have hsame : (w.update i fun s => (s.exec act).2) = w := by
    refine (update_congr fun t ht => ?_).trans (update_id w i)
    cases hs.symm.trans ht
    rw [h]
  simp only [exec_within, hs, h, hsame]
  rfl

/-- What a session holds under a handle. -/
def held (w : Workspace) (k : Nat) (handle : String) : Except Refusal (Datum Link) :=
  match w.session? k with
  | some t => (t.handle? handle).elim (.error .noHandle) .ok
  | none => .error .noSession

theorem held_eq_ok_iff {handle : String} {d : Datum Link} :
    w.held k handle = .ok d ↔ ∃ t, w.session? k = some t ∧ t.handle? handle = some d := by
  unfold held
  cases w.session? k with
  | none => simp
  | some t => cases h : t.handle? handle <;> simp [h]

theorem exec_resolve (w : Workspace) (k : Nat) (handle : String) :
    w.exec (resolve { session := k, handle }) = (w.held k handle, w) := by
  unfold resolve held
  rw [exec_bind, exec_session]
  cases hs : w.session? k with
  | none => rfl
  | some t =>
    simp only
    cases t.handle? handle with
    | none => rfl
    | some d =>
      have hfollow : ∀ s : Session, s.exec (Session.follow d []) = (.ok (some d), s) := fun _ => rfl
      simp only [exec_bind, exec_within, hfollow, hs, update_id]
      rfl

theorem exec_bind_pure (w : Workspace) (x : WorkspaceM α) (b : β) :
    (w.exec (x >>= fun _ => pure b)).2 = (w.exec x).2 := by
  rw [exec_bind]
  obtain ⟨r, v⟩ := w.exec x
  cases r <;> rfl

theorem exec_save (w : Workspace) (i : Nat) (keep : Option String) (d : Datum Link) :
    (w.exec (save i keep d)).2 = w.update i fun s => (s.exec (Session.keepAs keep d)).2 := by
  cases keep with
  | none => exact (update_id w i).symm
  | some name =>
    unfold save
    rw [exec_withSession]
    rfl

/-- A view asked for with the token of another session, and what becomes of the session asked. -/
theorem exec_viewAt (w : Workspace) (i k : Nat) (kind : ViewKind) (pos : Nat)
    (keep : Option String) :
    (w.exec (viewAt i k kind pos keep)).2 =
      w.update i fun s => (w.session? k).elim s fun t =>
        (s.exec (Session.viewAt t.token kind pos >>= Session.keepAs keep)).2 := by
  unfold viewAt
  rw [exec_bind, exec_session]
  cases hs : w.session? i with
  | none => exact (update_of_none hs _).symm
  | some s =>
    simp only
    rw [exec_bind, exec_session]
    cases w.session? k with
    | none => exact (update_id w i).symm
    | some t =>
      have hone : ∀ {f g : Session → Session}, f s = g s → w.update i f = w.update i g := by
        intro f g hfg
        refine update_congr fun other hother => ?_
        cases hs.symm.trans hother
        exact hfg
      obtain ⟨r, u, hr⟩ : ∃ r u, s.exec (Session.viewAt t.token kind pos) = (r, u) := ⟨_, _, rfl⟩
      simp only
      rw [exec_bind, exec_within, hs]
      simp only [hr]
      cases r with
      | error f => exact hone (by rw [Option.elim_some, Session.exec_bind_error s hr, hr])
      | ok d =>
        change (Workspace.exec _ (save i keep d >>= fun _ => pure d)).2 = _
        rw [exec_bind_pure, exec_save, update_update]
        exact hone (by rw [Option.elim_some, Session.exec_bind_ok s hr, hr])

end Workspace

namespace Session

variable {s t : Session}

/-- The sequence that is held under a name. -/
def heldSequence? (s : Session) (handle : String) : Option (Layout × Link) :=
  (s.handle? handle).bind Datum.sequence?

/-- A session after a sequence that it holds was read as one with a sequence that another holds. -/
def joined (s : Session) (handle : String) (t : Session) (other : String) : Session :=
  match s.heldSequence? handle, t.heldSequence? other with
  | some (element, item), some (element', item') =>
    if element = element' then (s.exec (concat item t.token item')).2 else s
  | _, _ => s

theorem exec_concat_foreign (item other : Link) {token : UInt32} (h : s.token ≠ token) :
    s.exec (concat item token other) = (.error .foreignSession, s) := by
  unfold concat
  rw [exec_bind_ok s (exec_get s), if_neg h]
  rfl

theorem exec_viewAt_foreign (kind : ViewKind) (pos : Nat) {token : UInt32} (h : s.token ≠ token) :
    s.exec (viewAt token kind pos) = (.error .foreignSession, s) := by
  unfold viewAt
  rw [exec_bind_ok s (exec_get s), if_neg h]
  rfl

theorem joined_of_held {handle other : String} {element : Layout} {item item' : Link}
    (hs : s.heldSequence? handle = some (element, item))
    (ht : t.heldSequence? other = some (element, item')) :
    s.joined handle t other = (s.exec (concat item t.token item')).2 := by
  simp [joined, hs, ht]

theorem joined_of_not_held {handle other : String}
    (h : ∀ element item item', s.heldSequence? handle = some (element, item) →
      t.heldSequence? other ≠ some (element, item')) : s.joined handle t other = s := by
  unfold joined
  split
  · rename_i element item element' item' hs ht
    refine if_neg ?_
    rintro rfl
    exact h element item item' hs ht
  · rfl

theorem joined_foreign (handle other : String) (h : s.token ≠ t.token) :
    s.joined handle t other = s := by
  unfold joined
  split
  · rw [exec_concat_foreign _ _ h]
    exact ite_self s
  · rfl

end Session

namespace Workspace

variable {w : Workspace} {i k : Nat} {element : Layout} {item item' : Link} {other : String}

theorem exec_concat_of_held {t : Session} (ht : w.session? k = some t)
    (he : t.heldSequence? other = some (element, item')) :
    w.exec (concat i element item (some { session := k, handle := other })) =
      w.exec (within i (Session.concat item t.token item')) := by
  obtain ⟨e, hhandle, hsequence⟩ := Option.bind_eq_some_iff.mp he
  have hheld : w.held k other = .ok e := held_eq_ok_iff.mpr ⟨t, ht, hhandle⟩
  unfold concat
  simp only
  rw [exec_bind, exec_resolve, hheld]
  simp only [hsequence, if_true, exec_bind, exec_session, ht]

/-- There has to be such a sequence, with elements of the same type. -/
theorem exec_concat_of_not_held
    (h : ∀ t item', w.session? k = some t → t.heldSequence? other ≠ some (element, item')) :
    (w.exec (concat i element item (some { session := k, handle := other }))).2 = w := by
  unfold concat
  simp only
  rw [exec_bind, exec_resolve]
  cases hheld : w.held k other with
  | error r => rfl
  | ok e =>
    obtain ⟨t, ht, hhandle⟩ := held_eq_ok_iff.mp hheld
    simp only
    cases hsequence : e.sequence? with
    | none => rfl
    | some found =>
      obtain ⟨element', item'⟩ := found
      have hne : element ≠ element' := by
        rintro rfl
        exact h t item' ht (by simp [Session.heldSequence?, hhandle, hsequence])
      simp only [if_neg hne]
      rfl

/-- Reading two held sequences as one is something that happens to the session of the first. -/
theorem exec_concatHeld (w : Workspace) (i : Nat) (handle : String) (k : Nat) (other : String) :
    (w.exec (concatHeld i handle k other)).2 =
      w.update i fun s => (w.session? k).elim s fun t => s.joined handle t other := by
  unfold concatHeld sequence
  rw [exec_bind, exec_bind, exec_resolve]
  by_cases hboth : ∃ s t element item item', w.session? i = some s ∧ w.session? k = some t ∧
      s.heldSequence? handle = some (element, item) ∧
      t.heldSequence? other = some (element, item')
  · obtain ⟨s, t, element, item, item', hs, ht, hfirst, hsecond⟩ := hboth
    obtain ⟨d, hhandle, hsequence⟩ := Option.bind_eq_some_iff.mp hfirst
    rw [held_eq_ok_iff.mpr ⟨s, hs, hhandle⟩]
    simp only [hsequence, ht]
    change (w.exec (concat i element item (some { session := k, handle := other }))).2 = _
    rw [exec_concat_of_held ht hsecond, exec_within]
    refine update_congr fun s' hs' => ?_
    cases hs.symm.trans hs'
    exact (Session.joined_of_held hfirst hsecond).symm
  · -- then nothing is read, and what would be done to the session leaves it as it is
    push Not at hboth
    have hright : (w.update i fun s => (w.session? k).elim s fun t => s.joined handle t other) =
        w := by
      refine (update_congr fun s hs => ?_).trans (update_id w i)
      cases ht : w.session? k with
      | none => rfl
      | some t =>
        exact Session.joined_of_not_held fun element item item' hfirst =>
          hboth s t element item item' hs ht hfirst
    rw [hright]
    cases hheld : w.held i handle with
    | error r => rfl
    | ok d =>
      obtain ⟨s, hs, hhandle⟩ := held_eq_ok_iff.mp hheld
      simp only
      cases hsequence : d.sequence? with
      | none => rfl
      | some found =>
        obtain ⟨element, item⟩ := found
        have hfirst : s.heldSequence? handle = some (element, item) := by
          simp [Session.heldSequence?, hhandle, hsequence]
        exact exec_concat_of_not_held fun t item' ht => hboth s t element item item' hs ht hfirst

/-! ## Tokens of other sessions -/

theorem exec_viewAt_foreign {s t : Session} (hs : w.session? i = some s)
    (ht : w.session? k = some t) (h : s.token ≠ t.token) (kind : ViewKind) (pos : Nat)
    (keep : Option String) :
    w.exec (viewAt i k kind pos keep) = (.error (.fault .foreignSession), w) := by
  unfold viewAt
  simp only [exec_bind, exec_session, hs, ht,
    exec_within_fault hs (Session.exec_viewAt_foreign kind pos h)]

theorem exec_concat_foreign {s t : Session} (hs : w.session? i = some s)
    (ht : w.session? k = some t) (h : s.token ≠ t.token)
    (he : t.heldSequence? other = some (element, item')) (item : Link) :
    w.exec (concat i element item (some { session := k, handle := other })) =
      (.error (.fault .foreignSession), w) := by
  rw [exec_concat_of_held ht he, exec_within_fault hs (Session.exec_concat_foreign item item' h)]

end Workspace

/-! ## Opening a session -/

namespace Session

variable {s : Session}

/-- The session that is opened with a token, if it opens. -/
def openWith? (document : Document) (opening : Opening) (token : UInt32) : Option Session :=
  match opening with
  | .root pos => (ofRoot document token pos).toOption
  | .trailer => (ofTrailer document token).toOption
  | .bare => some (start document token)

theorem ofRoot_token {document : Document} {token : UInt32} {pos : Nat}
    (h : ofRoot document token pos = .ok s) : s.token = token := by
  have hreads := (decode_holds (.start document token) "root" (.record .root) pos).reads
  have h : (match (start document token).exec (decode "root" (.record .root) pos) with
    | (result, t) => result.map fun d => t.save rootHandle d) = .ok s := h
  generalize (start document token).exec (decode "root" (.record .root) pos) = r at h hreads
  obtain ⟨r, t⟩ := r
  cases r with
  | error f => cases h
  | ok d =>
    cases h
    exact hreads.grows.token

theorem openWith?_sound {document : Document} {opening : Opening} {token : UInt32}
    (h : openWith? document opening token = some s) : s.Sound ∧ s.depth = 0 ∧ s.token = token := by
  have hroot : ∀ {pos}, ofRoot document token pos = .ok s →
      s.Sound ∧ s.depth = 0 ∧ s.token = token :=
    fun hopen => ⟨(ofRoot_sound hopen).2.1, (ofRoot_sound hopen).2.2, ofRoot_token hopen⟩
  cases opening with
  | root pos =>
    cases hopen : ofRoot document token pos with
    | error f => simp [openWith?, hopen, Except.toOption] at h
    | ok t =>
      simp only [openWith?, hopen, Except.toOption, Option.some.injEq] at h
      exact hroot (h ▸ hopen)
  | trailer =>
    cases hopen : ofTrailer document token with
    | error f => simp [openWith?, hopen, Except.toOption] at h
    | ok t =>
      simp only [openWith?, hopen, Except.toOption, Option.some.injEq] at h
      obtain ⟨pos, _, hopen⟩ := ok_of_bind hopen
      exact hroot (h ▸ hopen)
  | bare =>
    cases h
    exact ⟨.start document token, rfl, rfl⟩

end Session

/-! ## Sessions that are added -/

namespace Workspace

theorem session?_push (w : Workspace) (entry : Option Session) (started k : Nat) :
    (⟨w.sessions.push entry, started⟩ : Workspace).session? k =
      if k = w.sessions.size then entry else w.session? k := by
  simp only [session?, Array.getElem?_push]
  split <;> rfl

theorem session?_settle (w : Workspace) (k : Nat) :
    w.settle.session? k = (w.session? k).map Session.collect := by
  simp only [settle, session?, Array.getElem?_map]
  cases w.sessions[k]? with
  | none => rfl
  | some entry => cases entry <;> rfl

@[simp] theorem size_settle (w : Workspace) : w.settle.sessions.size = w.sessions.size := by
  simp [settle]

@[simp] theorem started_settle (w : Workspace) : w.settle.started = w.started := rfl

theorem openDocument_eq (w : Workspace) (document : Document) (opening : Opening) :
    (w.openDocument document opening).2 =
      ⟨w.sessions.push (Session.openWith? document opening w.nextToken),
        w.started + (opening.starts document).toNat⟩ := by
  cases opening <;> rfl

/-- Where a session opens, one was started. -/
theorem starts_of_openWith? {document : Document} {opening : Opening} {token : UInt32}
    {s : Session} (h : Session.openWith? document opening token = some s) :
    opening.starts document = true := by
  cases opening with
  | root pos => rfl
  | bare => rfl
  | trailer =>
    unfold Opening.starts
    cases hroot : document.trailerRoot with
    | ok root => rfl
    | error fault =>
      have hopen : Session.ofTrailer document token = .error fault := by
        unfold Session.ofTrailer
        rw [hroot]
        rfl
      simp [Session.openWith?, hopen, Except.toOption] at h

end Workspace

end FlatSyntax
