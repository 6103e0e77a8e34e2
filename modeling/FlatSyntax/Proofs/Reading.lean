import Mathlib
import FlatSyntax.Proofs.Sound

/-!
# What reading does to a session

Reading builds objects and fills slots, and nothing else: nobody's object goes away, and nobody's
handle changes. `Reads s t` says that a session got from `s` to `t` by reading alone. `Reading` is
the rule for one computation: it reads, and its outcome is as stated. The outcomes here are
compared with what the document alone gives, so that a computation that reads through the objects
of a session is seen to have the same outcome as one that reads the buffer each time.

A `Course` is an account of the constructions on the way from one session to another.
-/

namespace FlatSyntax

namespace Session

/-- The outcome of an operation that may fail, and the session after it. -/
def exec {α : Type} (s : Session) (x : SessionM α) : Except Fault α × Session := x.run.run s

section Exec

variable {α β : Type} (s : Session)

@[simp] theorem exec_pure (a : α) : s.exec (pure a) = (.ok a, s) := rfl

@[simp] theorem exec_get : s.exec (get : SessionM Session) = (.ok s, s) := rfl

@[simp] theorem exec_set (t : Session) : s.exec (set t : SessionM Unit) = (.ok (), t) := rfl

@[simp] theorem exec_modify (f : Session → Session) :
    s.exec (modify f : SessionM Unit) = (.ok (), f s) := rfl

@[simp] theorem exec_ofExcept (r : Except Fault α) : s.exec (ofExcept r) = (r, s) := by
  cases r <;> rfl

theorem exec_bind (x : SessionM α) (f : α → SessionM β) :
    s.exec (x >>= f) =
      match s.exec x with
      | (.ok a, t) => t.exec (f a)
      | (.error e, t) => (.error e, t) := by
  change (ExceptT.bindCont f (s.exec x).1).run (s.exec x).2 = _
  obtain ⟨r, t⟩ := s.exec x
  cases r <;> rfl

theorem exec_bind_ok {x : SessionM α} {t : Session} {a : α} (h : s.exec x = (.ok a, t))
    (f : α → SessionM β) : s.exec (x >>= f) = t.exec (f a) := by
  rw [exec_bind, h]

theorem exec_bind_error {x : SessionM α} {t : Session} {e : Fault} (h : s.exec x = (.error e, t))
    (f : α → SessionM β) : s.exec (x >>= f) = (.error e, t) := by
  rw [exec_bind, h]

@[simp] theorem exec_map (f : α → β) (x : SessionM α) :
    s.exec (f <$> x) = ((s.exec x).1.map f, (s.exec x).2) := by
  rw [map_eq_pure_bind, exec_bind]
  obtain ⟨r, t⟩ := s.exec x
  cases r <;> rfl

@[simp] theorem exec_lift (x : StateM Session α) :
    s.exec (ExceptT.lift x) = (.ok (x.run s).1, (x.run s).2) := rfl

end Exec

/-! ## Growth -/

/-- Nothing but objects and the contents of slots was added. -/
structure Grows (s t : Session) : Prop where
  document : t.document = s.document
  token : t.token = s.token
  handles : t.handles = s.handles
  pins : t.pins = s.pins
  depth : t.depth = s.depth
  live : ∀ item, s.heap.Live item → t.heap.Live item

theorem Grows.refl (s : Session) : s.Grows s := ⟨rfl, rfl, rfl, rfl, rfl, fun _ h => h⟩

theorem Grows.trans {s t u : Session} (h : s.Grows t) (h' : t.Grows u) : s.Grows u where
  document := h'.document.trans h.document
  token := h'.token.trans h.token
  handles := h'.handles.trans h.handles
  pins := h'.pins.trans h.pins
  depth := h'.depth.trans h.depth
  live item hi := h'.live item (h.live item hi)

/-! ## Constructions -/

/-- A change that constructs nothing: what is live afterwards was live before and has been kept. -/
structure Quiet (s t : Session) : Prop where
  document : t.document = s.document
  constructed : t.heap.constructed = s.heap.constructed
  kept : ∀ serial o', t.heap.get? serial = some o' → ∃ o, s.heap.get? serial = some o ∧ o.Kept o'

/-- The way from a session to another, with the number of constructions on it. An object is
constructed when it is requested, nothing live is at its place, and its bytes lie in the buffer;
it gets the next serial number. -/
inductive Course : Session → Nat → Session → Prop where
  /-- Nothing happens. -/
  | refl (s : Session) : Course s 0 s
  /-- A request that constructs an object. -/
  | built {s u t : Session} {n : Nat} (place : Place) (extent : Extent)
      (absent : ∀ item, s.heap.Live item → item.place ≠ place)
      (fits : s.document.extent place = .ok extent)
      (request : s.exec (openPlace place) = (.ok ⟨place, extent, s.heap.constructed⟩, u))
      (added : u = { s with heap := (s.heap.add (.fresh place extent)).2 })
      (rest : Course u n t) : Course s (n + 1) t
  /-- Anything else. -/
  | quiet {s u t : Session} {n : Nat} (h : s.Quiet u) (rest : Course u n t) : Course s n t

theorem Course.trans {s t u : Session} {m n : Nat} (h : Course s m t) (h' : Course t n u) :
    Course s (m + n) u := by
  induction h with
  | refl s => simpa using h'
  | built place extent absent fits request added _ ih =>
    rw [Nat.add_right_comm]
    exact .built place extent absent fits request added (ih h')
  | quiet hq _ ih => exact .quiet hq (ih h')

/-- The number of objects built goes up by one with each construction and not otherwise. -/
theorem Course.constructed {s t : Session} {n : Nat} (h : Course s n t) :
    t.heap.constructed = s.heap.constructed + n := by
  induction h with
  | refl s => rfl
  | built place extent absent fits request added _ ih =>
    rw [ih, added, Heap.constructed_add]
    omega
  | quiet hq _ ih => rw [ih, hq.constructed]

/-- An object that was there at the start and is live at the end has been kept all the way: an
object that is let go never comes back. -/
theorem Course.kept {s t : Session} {n : Nat} (h : Course s n t) {serial : Nat} {o' : Object}
    (hlt : serial < s.heap.constructed) (hget : t.heap.get? serial = some o') :
    ∃ o, s.heap.get? serial = some o ∧ o.Kept o' := by
  induction h with
  | refl s => exact ⟨o', hget, .refl o'⟩
  | @built s u t n place extent absent fits request added _ ih =>
    have hlt' : serial < u.heap.constructed := by
      rw [added, Heap.constructed_add]
      omega
    obtain ⟨o, ho, hk⟩ := ih hlt' hget
    rw [added, Heap.get?_add, if_neg (Nat.ne_of_lt hlt)] at ho
    exact ⟨o, ho, hk⟩
  | quiet hq _ ih =>
    obtain ⟨o, ho, hk⟩ := ih (by rw [hq.constructed]; exact hlt) hget
    obtain ⟨p, hp, hk'⟩ := hq.kept serial o ho
    exact ⟨p, hp, hk'.trans hk⟩

/-! ## Notes -/

/-- What was built before has the notes it had, and what is new has none. -/
structure NotesKept (s t : Session) : Prop where
  constructed : s.heap.constructed ≤ t.heap.constructed
  kept : ∀ {serial o'}, serial < s.heap.constructed → t.heap.get? serial = some o' →
    ∃ o, s.heap.get? serial = some o ∧ o'.notes = o.notes
  fresh : ∀ {serial o'}, s.heap.constructed ≤ serial → t.heap.get? serial = some o' → o'.notes = []

/-- Nothing was built, and what is left has the notes it had. -/
theorem NotesKept.of_quiet {s t : Session} (hbuilt : t.heap.constructed = s.heap.constructed)
    (hkept : ∀ {serial o'}, t.heap.get? serial = some o' →
      ∃ o, s.heap.get? serial = some o ∧ o'.notes = o.notes) : s.NotesKept t := by
  refine ⟨hbuilt.ge, fun _ hget => hkept hget, fun hle hget => ?_⟩
  have hlt := Heap.get?_lt hget
  omega

theorem NotesKept.of_heap {s t : Session} (hheap : t.heap = s.heap) : s.NotesKept t :=
  .of_quiet (by rw [hheap]) fun {_ o'} hget => ⟨o', hheap ▸ hget, rfl⟩

theorem NotesKept.trans {s t u : Session} (h : s.NotesKept t) (h' : t.NotesKept u) :
    s.NotesKept u := by
  refine ⟨h.constructed.trans h'.constructed, fun {serial o'} hlt hget => ?_,
    fun {serial o'} hle hget => ?_⟩
  · obtain ⟨p, hp, heq⟩ := h'.kept (hlt.trans_le h.constructed) hget
    obtain ⟨o, ho, heq'⟩ := h.kept hlt hp
    exact ⟨o, ho, heq.trans heq'⟩
  · by_cases hlt : serial < t.heap.constructed
    · obtain ⟨p, hp, heq⟩ := h'.kept hlt hget
      exact heq.trans (h.fresh hle hp)
    · exact h'.fresh (Nat.le_of_not_lt hlt) hget

theorem NotesKept.of_add {s : Session} (place : Place) (extent : Extent) :
    s.NotesKept { s with heap := (s.heap.add (.fresh place extent)).2 } := by
  refine ⟨?_, fun hlt hget => ?_, fun hle hget => ?_⟩
  · rw [Heap.constructed_add]
    omega
  · rw [Heap.get?_add, if_neg (Nat.ne_of_lt hlt)] at hget
    exact ⟨_, hget, rfl⟩
  · rw [Heap.get?_add] at hget
    split at hget
    · cases hget
      rfl
    · exact absurd (Heap.get?_lt hget) (Nat.not_lt.mpr hle)

/-! ## Reading -/

/-- A session got from `s` to `t` by reading. -/
structure Reads (s t : Session) : Prop where
  grows : s.Grows t
  sound : t.Sound
  course : ∃ n, Course s n t
  notes : s.NotesKept t

theorem Reads.refl {s : Session} (hs : s.Sound) : s.Reads s :=
  ⟨.refl s, hs, ⟨0, .refl s⟩, .of_heap rfl⟩

theorem Reads.trans {s t u : Session} (h : s.Reads t) (h' : t.Reads u) : s.Reads u := by
  obtain ⟨m, hm⟩ := h.course
  obtain ⟨n, hn⟩ := h'.course
  exact ⟨h.grows.trans h'.grows, h'.sound, ⟨m + n, hm.trans hn⟩, h.notes.trans h'.notes⟩

/-- Running `x` in `s` only reads, and the outcome is as `Q` says. -/
structure Reading {α : Type} (s : Session) (x : SessionM α) (Q : Session → Except Fault α → Prop) :
    Prop where
  reads : s.Reads (s.exec x).2
  outcome : Q (s.exec x).2 (s.exec x).1

/-- Two outcomes are the same fault, or two values in a relation. -/
inductive Matches {α β : Type} (R : α → β → Prop) : Except Fault α → Except Fault β → Prop where
  | ok {a : α} {b : β} (h : R a b) : Matches R (.ok a) (.ok b)
  | error (f : Fault) : Matches R (.error f) (.error f)

theorem Matches.eq_of_eq {α : Type} {r q : Except Fault α} (h : Matches (· = ·) r q) : r = q := by
  cases h with
  | ok h => rw [h]
  | error f => rfl

theorem Matches.refl {α : Type} (r : Except Fault α) : Matches (· = ·) r r := by
  cases r with
  | ok a => exact .ok rfl
  | error f => exact .error f

theorem Matches.of_error {α β : Type} {R : α → β → Prop} {r : Except Fault α} {y : Except Fault β}
    {fault : Fault} (h : Matches R r y) (hr : r = .error fault) : y = .error fault := by
  cases h with
  | ok _ => cases hr
  | error f =>
    cases hr
    rfl

theorem Matches.of_ok {α β : Type} {R : α → β → Prop} {r : Except Fault α} {y : Except Fault β}
    {b : β} (h : Matches R r y) (hy : y = .ok b) : ∃ a, r = .ok a ∧ R a b := by
  cases h with
  | ok h =>
    cases hy
    exact ⟨_, rfl, h⟩
  | error f => cases hy

theorem ofExcept_except {α : Type} (r : Except Fault α) :
    (MonadExcept.ofExcept r : Except Fault α) = r := by
  cases r <;> rfl

section Reading

variable {α β γ δ : Type} {s : Session}

theorem Reading.pure (hs : s.Sound) {a : α} {Q : Session → Except Fault α → Prop}
    (h : Q s (.ok a)) : s.Reading (Pure.pure a) Q := ⟨.refl hs, h⟩

theorem Reading.ofExcept (hs : s.Sound) {r : Except Fault α}
    {Q : Session → Except Fault α → Prop} (h : Q s r) : s.Reading (Session.ofExcept r) Q := by
  refine ⟨?_, ?_⟩ <;> rw [exec_ofExcept]
  · exact .refl hs
  · exact h

theorem Reading.throw (hs : s.Sound) {f : Fault} {Q : Session → Except Fault α → Prop}
    (h : Q s (.error f)) : s.Reading (MonadExcept.throw f) Q := ⟨.refl hs, h⟩

theorem Reading.get_bind {f : Session → SessionM α} {Q : Session → Except Fault α → Prop}
    (h : s.Reading (f s) Q) : s.Reading (get >>= f) Q := by
  refine ⟨?_, ?_⟩ <;> rw [exec_bind_ok s (exec_get s) f]
  · exact h.reads
  · exact h.outcome

theorem Reading.mono {x : SessionM α} {Q Q' : Session → Except Fault α → Prop}
    (h : s.Reading x Q) (hQ : ∀ t r, s.Reads t → Q t r → Q' t r) : s.Reading x Q' :=
  ⟨h.reads, hQ _ _ h.reads h.outcome⟩

theorem Reading.bind {x : SessionM α} {f : α → SessionM β} {Q : Session → Except Fault α → Prop}
    {Q' : Session → Except Fault β → Prop} (hx : s.Reading x Q)
    (hf : ∀ t a, s.Reads t → Q t (.ok a) → t.Reading (f a) Q')
    (he : ∀ t e, s.Reads t → Q t (.error e) → Q' t (.error e)) : s.Reading (x >>= f) Q' := by
  obtain ⟨hreads, hout⟩ := hx
  generalize hr : s.exec x = r at hreads hout
  obtain ⟨r, t⟩ := r
  cases r with
  | ok a =>
    obtain ⟨hreads', hout'⟩ := hf t a hreads hout
    refine ⟨?_, ?_⟩ <;> rw [exec_bind_ok s hr f]
    · exact hreads.trans hreads'
    · exact hout'
  | error e =>
    refine ⟨?_, ?_⟩ <;> rw [exec_bind_error s hr f]
    · exact hreads
    · exact he t e hreads hout

/-- A computation in a session and one without, step by step. -/
theorem Reading.bind_matches {x : SessionM α} {f : α → SessionM γ} {y : Except Fault β}
    {g : β → Except Fault δ} {R : Session → α → β → Prop} {R' : Session → γ → δ → Prop}
    (hx : s.Reading x fun t r => Matches (R t) r y)
    (hf : ∀ t a b, s.Reads t → R t a b → t.Reading (f a) fun u r => Matches (R' u) r (g b)) :
    s.Reading (x >>= f) fun u r => Matches (R' u) r (y >>= g) := by
  refine hx.bind (fun t a ht h => ?_) fun t e ht h => ?_
  · cases h with
    | ok h => exact hf t a _ ht h
  · cases h with
    | error e => exact .error e

theorem Reading.map_matches {x : SessionM α} {f : α → γ} {y : Except Fault β} {g : β → δ}
    {R : Session → α → β → Prop} {R' : Session → γ → δ → Prop}
    (hx : s.Reading x fun t r => Matches (R t) r y)
    (hf : ∀ t a b, s.Reads t → R t a b → R' t (f a) (g b)) :
    s.Reading (f <$> x) fun u r => Matches (R' u) r (g <$> y) := by
  have hmap : f <$> x = x >>= fun a => Pure.pure (f a) := map_eq_pure_bind ..
  have hmap' : g <$> y = y >>= fun b => Pure.pure (g b) := map_eq_pure_bind ..
  rw [hmap, hmap']
  exact hx.bind_matches fun t a b ht h => .pure ht.sound (.ok (hf t a b ht h))

end Reading

end Session

end FlatSyntax
