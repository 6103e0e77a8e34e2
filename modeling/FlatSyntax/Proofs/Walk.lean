import Mathlib
import FlatSyntax.Visitor.Walker

/-!
# Walks

Two walks with guides of different kinds go side by side: whatever relation between their steps is
kept by sequencing, and holds of reads, holds of the walks. Reads have faults of their own, and running
out of levels is not among them: only a walk that would go one node too deep does that. Two uses are
here. A walk that remembers what it found out about layouts records what a walk that asks its plan every
time records. And the events of a walk are nested: a node is left as often as it was entered, innermost
first, unless a fault ends the walk, and its bytes lie in the buffer.
-/

namespace FlatSyntax

/-! ## Traces -/

namespace Trace

variable {α β : Type}

@[simp] theorem pure_eq (a : α) : (pure a : Trace α) = ⟨[], .ok a⟩ := rfl

theorem bind_ok (events : List Event) (a : α) (f : α → Trace β) :
    (⟨events, .ok a⟩ >>= f : Trace β) = ⟨events ++ (f a).events, (f a).result⟩ := rfl

theorem bind_error (events : List Event) (fault : Fault) (f : α → Trace β) :
    ((⟨events, .error fault⟩ : Trace α) >>= f) = ⟨events, .error fault⟩ := rfl

@[simp] theorem emit_bind (event : Event) (f : Unit → Trace β) :
    (emit event >>= f : Trace β) = ⟨event :: (f ()).events, (f ()).result⟩ := rfl

theorem result_of_none {t : Trace α} (h : t.fault? = none) :
    ∃ a, t.result = .ok a := by
  unfold fault? at h
  cases hresult : t.result with
  | ok a => exact ⟨a, rfl⟩
  | error fault =>
    rw [hresult] at h
    cases h

theorem result_of_some {t : Trace α} {f : Fault} (h : t.fault? = some f) :
    t.result = .error f := by
  unfold fault? at h
  cases hresult : t.result with
  | ok a =>
    rw [hresult] at h
    cases h
  | error fault =>
    rw [hresult] at h
    rw [Option.some.inj h]

end Trace

/-! ## Faults of reads -/

/-- An outcome other than running out of levels. -/
def Shallow {α : Type} (r : Except Fault α) : Prop := ∀ limit, r ≠ .error (.tooDeep limit)

theorem Shallow.ok {α : Type} (a : α) : Shallow (.ok a) := fun _ h => nomatch h

theorem Shallow.bind {α β : Type} {r : Except Fault α} {f : α → Except Fault β} (h : Shallow r)
    (hf : ∀ a, Shallow (f a)) : Shallow (r >>= f) := by
  cases r with
  | error fault =>
    intro limit heq
    cases heq
    exact h limit rfl
  | ok a => exact hf a

namespace Document

variable (doc : Document)

theorem check_shallow (pos length : Nat) : Shallow (doc.check pos length) := by
  intro limit h
  unfold check at h
  split at h <;> cases h

theorem bytes_shallow (pos length : Nat) : Shallow (doc.bytes pos length) :=
  (doc.check_shallow pos length).bind fun _ => .ok _

theorem byte_shallow (pos : Nat) : Shallow (doc.byte pos) :=
  (doc.bytes_shallow pos 1).bind fun _ => .ok _

theorem word_shallow (pos : Nat) : Shallow (doc.word pos) :=
  (doc.bytes_shallow pos 4).bind fun _ => .ok _

theorem long_shallow (pos : Nat) : Shallow (doc.long pos) :=
  (doc.bytes_shallow pos 8).bind fun _ => .ok _

theorem isAbsent_shallow (field : String) (layout : Layout) (pos : Nat) :
    Shallow (doc.isAbsent field layout pos) := by
  unfold isAbsent
  cases layout.absence with
  | nullPointer distance => exact (doc.long_shallow _).bind fun _ => .ok _
  | reservedTag distance tag => exact (doc.byte_shallow _).bind fun _ => .ok _
  | emptyText =>
    refine (doc.long_shallow pos).bind fun pointer => ?_
    split
    · exact (doc.word_shallow _).bind fun _ => .ok _
    · exact .ok _
  | unsupported => exact fun limit h => nomatch h

end Document

namespace Walk

/-! ## Walks side by side -/

section Alike

variable {m n : Type → Type} [Monad m] [Monad n]

/-- A relation between the computations of two guides that sequencing keeps and that holds of reads. -/
structure Alike (R : (α : Type) → m α → n α → Prop) (g : Guide m) (g' : Guide n) : Prop where
  pure : ∀ {α : Type} (a : α), R α (Pure.pure a) (Pure.pure a)
  bind : ∀ {α β : Type} {x : m α} {y : n α} {f : α → m β} {f' : α → n β},
    R α x y → (∀ a, R β (f a) (f' a)) → R β (x >>= f) (y >>= f')
  reaches : ∀ layout, R Bool (g.reaches layout) (g'.reaches layout)
  read : ∀ {α : Type} {r : Except Fault α}, Shallow r → R α (g.read r) (g'.read r)

variable {R : (α : Type) → m α → n α → Prop} {g : Guide m} {g' : Guide n} (doc : Document)

theorem Alike.forM (h : Alike R g g') {α : Type} {f : α → m Unit} {f' : α → n Unit}
    (hf : ∀ a, R Unit (f a) (f' a)) (l : List α) : R Unit (l.forM f) (l.forM f') := by
  induction l with
  | nil => exact h.pure ()
  | cons a rest ih => exact h.bind (hf a) fun _ => ih

/-- A part of a walk that is made only if a layout is worth it. -/
theorem Alike.guarded (h : Alike R g g') (layout : Layout) {x : m Unit} {y : n Unit}
    (hx : R Unit x y) :
    R Unit (do if ← g.reaches layout then x) (do if ← g'.reaches layout then y) := by
  refine h.bind (h.reaches layout) fun answer => ?_
  cases answer
  · exact h.pure ()
  · exact hx

theorem Alike.value (h : Alike R g g') {view : ViewKind → Nat → m Unit}
    {view' : ViewKind → Nat → n Unit} (hview : ∀ kind pos, R Unit (view kind pos) (view' kind pos))
    (layout : Layout) (pos : Nat) :
    R Unit (value doc g view layout pos) (value doc g' view' layout pos) := by
  induction layout generalizing pos with
  | view kind => exact hview kind pos
  | union kind =>
    refine h.guarded (.union kind) (h.bind (h.read (doc.byte_shallow _)) fun tag => ?_)
    split
    · rename_i v _
      split
      · exact hview _ _
      · refine h.guarded (.node v.node) (h.bind (h.read (doc.word_shallow _)) fun target => ?_)
        exact hview _ _
    · exact h.read fun limit heq => nomatch heq
  | boxed layout ih =>
    exact h.guarded layout (h.bind (h.read (doc.word_shallow _)) fun target => ih target)
  | sequence element ih =>
    refine h.guarded element (h.bind (h.read (doc.word_shallow _)) fun pointer => ?_)
    refine h.bind (h.read (doc.word_shallow _)) fun length => ?_
    refine h.bind (h.read (doc.check_shallow _ _)) fun _ => ?_
    exact h.forM (fun index => ih _) _
  | optional layout ih =>
    refine h.guarded layout (h.bind (h.read (doc.isAbsent_shallow _ _ _)) fun absent => ?_)
    cases absent
    · exact ih pos
    · exact h.pure ()
  | _ => exact h.pure ()

theorem Alike.children (h : Alike R g g') {view : ViewKind → Nat → m Unit}
    {view' : ViewKind → Nat → n Unit} (hview : ∀ kind pos, R Unit (view kind pos) (view' kind pos))
    (kind : ViewKind) (pos : Nat) :
    R Unit (children doc g view kind pos) (children doc g' view' kind pos) :=
  h.forM (fun field : Field => h.value doc hview field.layout (doc.offset pos field.offset))
    kind.children

theorem Alike.record (h : Alike R g g') {node : NodeKind → Nat → m Unit}
    {node' : NodeKind → Nat → n Unit} (hnode : ∀ kind pos, R Unit (node kind pos) (node' kind pos))
    (level : Nat) (kind : RecordKind) (pos : Nat) :
    R Unit (record doc g node level kind pos) (record doc g' node' level kind pos) := by
  induction level generalizing kind pos with
  | zero => exact h.pure ()
  | succ level ih =>
    refine h.guarded (.record kind) (h.bind (h.read (doc.check_shallow _ _)) fun _ => ?_)
    refine h.children doc (fun inner p => ?_) (.record kind) pos
    cases inner with
    | node inner => exact hnode inner p
    | record inner => exact ih inner p

theorem Alike.viewVia (h : Alike R g g') {node : NodeKind → Nat → m Unit}
    {node' : NodeKind → Nat → n Unit} (hnode : ∀ kind pos, R Unit (node kind pos) (node' kind pos))
    (kind : ViewKind) (pos : Nat) :
    R Unit (viewVia doc g node kind pos) (viewVia doc g' node' kind pos) := by
  cases kind with
  | node kind => exact hnode kind pos
  | record kind => exact h.record doc hnode (kind.rank + 1) kind pos

/-- Walks of one plan that record alike and run out of levels alike. -/
theorem Alike.node (h : Alike R g g') (hplan : g'.plan = g.plan)
    (hemit : ∀ event, R Unit (g.emit event) (g'.emit event))
    (hdeep : ∀ limit, R Unit (g.read (.error (.tooDeep limit))) (g'.read (.error (.tooDeep limit))))
    (depth : Nat) (kind : NodeKind) (pos : Nat) :
    R Unit (node doc g depth kind pos) (node doc g' depth kind pos) := by
  have hannounce : ∀ phase kind pos,
      R Unit (announce g phase kind pos) (announce g' phase kind pos) := by
    intro phase kind pos
    unfold announce
    rw [hplan]
    split
    · exact hemit _
    · exact h.pure ()
  induction depth generalizing kind pos with
  | zero =>
    unfold Walk.node
    rw [hplan]
    split
    · exact h.bind (h.read (doc.check_shallow _ _)) fun _ => hdeep _
    · exact h.pure ()
  | succ depth ih =>
    unfold Walk.node
    rw [hplan]
    split
    · refine h.bind (h.read (doc.check_shallow _ _)) fun _ => ?_
      refine h.bind (hannounce _ _ _) fun _ => ?_
      refine h.bind (h.children doc (h.viewVia doc ih) (.node kind) pos) fun _ => ?_
      exact hannounce _ _ _
    · exact h.pure ()

theorem Alike.view (h : Alike R g g') (hplan : g'.plan = g.plan)
    (hemit : ∀ event, R Unit (g.emit event) (g'.emit event))
    (hdeep : ∀ limit, R Unit (g.read (.error (.tooDeep limit))) (g'.read (.error (.tooDeep limit))))
    (kind : ViewKind) (pos : Nat) : R Unit (view doc g kind pos) (view doc g' kind pos) :=
  h.viewVia doc (h.node doc hplan hemit hdeep _) kind pos

end Alike

end Walk

/-! ## Properties of one walk -/

/-- A property of traces that sequencing keeps and that reads have. -/
structure Trace.Kept (P : (α : Type) → Trace α → Prop) : Prop where
  bind : ∀ {α β : Type} {t : Trace α} {f : α → Trace β}, P α t → (∀ a, P β (f a)) → P β (t >>= f)
  read : ∀ {α : Type} {r : Except Fault α}, Shallow r → P α (.ofExcept r)

namespace Trace.Kept

variable {P : (α : Type) → Trace α → Prop} (doc : Document) (plan : Plan)

theorem alike (h : Kept P) :
    Walk.Alike (fun α x y => x = y ∧ P α x) (.ofPlan plan) (.ofPlan plan) where
  pure a := ⟨rfl, h.read (.ok a)⟩
  bind hx hf := by
    obtain ⟨rfl, hx⟩ := hx
    exact ⟨congrArg _ (funext fun a => (hf a).1), h.bind hx fun a => (hf a).2⟩
  reaches layout := ⟨rfl, h.read (.ok _)⟩
  read hr := ⟨rfl, h.read hr⟩

theorem children (h : Kept P) {view : ViewKind → Nat → Trace Unit}
    (hview : ∀ kind pos, P Unit (view kind pos)) (kind : ViewKind) (pos : Nat) :
    P Unit (Walk.children doc (.ofPlan plan) view kind pos) :=
  ((h.alike plan).children doc (fun kind pos => ⟨rfl, hview kind pos⟩) kind pos).2

theorem viewVia (h : Kept P) {node : NodeKind → Nat → Trace Unit}
    (hnode : ∀ kind pos, P Unit (node kind pos)) (kind : ViewKind) (pos : Nat) :
    P Unit (Walk.viewVia doc (.ofPlan plan) node kind pos) :=
  ((h.alike plan).viewVia doc (fun kind pos => ⟨rfl, hnode kind pos⟩) kind pos).2

end Trace.Kept

/-! ## The walk of a plan, unfolded once -/

namespace Walk

variable {doc : Document} {plan : Plan} {kind : NodeKind} {pos : Nat}

theorem node_of_not_needed (h : plan.needed.contains kind ≠ true) (depth : Nat) :
    node doc (.ofPlan plan) depth kind pos = pure () := by
  unfold node
  exact if_neg h

theorem node_zero (h : plan.needed.contains kind = true) :
    node doc (.ofPlan plan) 0 kind pos = (do
      Trace.ofExcept (doc.check pos (ViewKind.node kind).size)
      Trace.ofExcept (.error (.tooDeep doc.options.maxDepth))) := by
  unfold node
  exact if_pos h

theorem node_succ (h : plan.needed.contains kind = true) (depth : Nat) :
    node doc (.ofPlan plan) (depth + 1) kind pos = (do
      Trace.ofExcept (doc.check pos (ViewKind.node kind).size)
      announce (.ofPlan plan) .enter kind pos
      children doc (.ofPlan plan) (viewVia doc (.ofPlan plan) (node doc (.ofPlan plan) depth))
        (.node kind) pos
      announce (.ofPlan plan) .exit kind pos) := by
  conv_lhs => unfold node
  exact if_pos h

end Walk

/-! ## Remembering -/

namespace Visitor

variable (v : Visitor) (layout : Layout)

/-- What a visitor remembers is what its plan says. -/
theorem reaches_fst : (v.reaches layout).1 = v.plan.reaches layout := by
  unfold reaches
  split
  · rename_i answer hl
    obtain ⟨before, after, hknown, _⟩ := List.lookup_eq_some_iff.mp hl
    exact v.known_eq (layout, answer) (by simp [hknown])
  · rfl

theorem plan_reaches : (v.reaches layout).2.plan = v.plan := by
  unfold reaches
  split <;> rfl

end Visitor

namespace Walker

/-- A part of a walk that remembers goes as a trace says: it ends the same way, records the same
events, and the visitor has the same plan afterwards. -/
def Follows (plan : Plan) (α : Type) (x : WalkM α) (t : Trace α) : Prop :=
  ∀ w : Walker, w.visitor.plan = plan →
    ∃ v : Visitor, v.plan = plan ∧
      x.run.run w = (t.result, ⟨v, w.events ++ t.events.toArray⟩)

theorem read_follows {α : Type} (plan : Plan) (r : Except Fault α) :
    Follows plan α ((guide plan).read r) (.ofExcept r) := by
  intro w hw
  refine ⟨w.visitor, hw, ?_⟩
  cases r <;> simp [guide, Trace.ofExcept] <;> rfl

theorem alike (plan : Plan) : Walk.Alike (Follows plan) (guide plan) (.ofPlan plan) where
  pure a w hw := ⟨w.visitor, hw, by simp; rfl⟩
  bind {α β x y f f'} hx hf w hw := by
    obtain ⟨v, hv, hrun⟩ := hx w hw
    obtain ⟨events, result⟩ := y
    cases result with
    | error fault =>
      refine ⟨v, hv, ?_⟩
      change (ExceptT.bindCont f (x.run.run w).1).run (x.run.run w).2 = _
      rw [hrun]
      rfl
    | ok a =>
      obtain ⟨v', hv', hrun'⟩ := hf a ⟨v, w.events ++ events.toArray⟩ hv
      refine ⟨v', hv', ?_⟩
      change (ExceptT.bindCont f (x.run.run w).1).run (x.run.run w).2 = _
      rw [hrun, Trace.bind_ok]
      refine hrun'.trans ?_
      simp [Array.append_assoc]
  reaches layout w hw := by
    refine ⟨(w.visitor.reaches layout).2, ?_, ?_⟩
    · rw [Visitor.plan_reaches, hw]
    · change ((.ok (w.visitor.reaches layout).1 : Except Fault Bool),
        ({ w with visitor := (w.visitor.reaches layout).2 } : Walker)) = _
      rw [Visitor.reaches_fst, hw]
      simp [Walk.Guide.ofPlan]
  read _ := read_follows plan _

theorem emit_follows (plan : Plan) (event : Event) :
    Follows plan Unit (emit event) (Trace.emit event) := by
  intro w hw
  refine ⟨w.visitor, hw, ?_⟩
  change ((.ok () : Except Fault Unit), ({ w with events := w.events.push event } : Walker)) = _
  simp [Trace.emit]

end Walker

/-- Remembering changes neither a walk nor the plan. -/
theorem Visitor.walk_eq (v : Visitor) (doc : Document) (kind : ViewKind) (pos : Nat) :
    (v.walk doc kind pos).1 = doc.walk v.plan kind pos ∧
      (v.walk doc kind pos).2.plan = v.plan := by
  have hview := (Walker.alike v.plan).view doc rfl (Walker.emit_follows v.plan)
    (fun limit => Walker.read_follows v.plan (.error (.tooDeep limit))) kind pos
  obtain ⟨v', hv', hrun⟩ := hview { visitor := v } rfl
  unfold Visitor.walk
  rw [hrun]
  refine ⟨?_, hv'⟩
  simp [Document.walk]

/-- A visitor that has walked, over any documents. -/
inductive Visitor.Reused (fresh : Visitor) : Visitor → Prop where
  /-- It has not walked yet. -/
  | refl : Reused fresh fresh
  /-- One more walk. -/
  | walk {v : Visitor} (h : Reused fresh v) (doc : Document) (kind : ViewKind) (pos : Nat) :
      Reused fresh (v.walk doc kind pos).2

theorem Visitor.Reused.plan_eq {fresh v : Visitor} (h : fresh.Reused v) : v.plan = fresh.plan := by
  induction h with
  | refl => rfl
  | @walk v _ doc kind pos ih => exact (v.walk_eq doc kind pos).2.trans ih

/-! ## Nesting -/

/-- Events of a walk that is inside of nodes at the given places, innermost first. -/
inductive Nested (doc : Document) : List Place → List Event → Prop where
  /-- The walk has ended. -/
  | nil (inside : List Place) : Nested doc inside []
  /-- A node is entered. -/
  | enter {inside : List Place} {rest : List Event} {kind : NodeKind} {pos : Nat}
      (checked : doc.check pos (ViewKind.node kind).size = .ok ())
      (h : Nested doc (.view (.node kind) pos :: inside) rest) :
      Nested doc inside (⟨.enter, kind, pos⟩ :: rest)
  /-- The innermost node is left. -/
  | exit {inside : List Place} {rest : List Event} {kind : NodeKind} {pos : Nat}
      (h : Nested doc inside rest) :
      Nested doc (.view (.node kind) pos :: inside) (⟨.exit, kind, pos⟩ :: rest)

namespace Trace

/-- A trace can stand anywhere in a walk: if it ends well, it has left what it entered. -/
def Balanced (doc : Document) (α : Type) (t : Trace α) : Prop :=
  ∀ inside rest, (∀ a, t.result = .ok a → Nested doc inside rest) →
    (∀ fault, t.result = .error fault → rest = []) → Nested doc inside (t.events ++ rest)

variable {doc : Document} {α β : Type}

theorem Balanced.ofExcept (r : Except Fault α) : Balanced doc α (Trace.ofExcept r) := by
  intro inside rest hok herr
  cases r with
  | ok a => exact hok a rfl
  | error fault =>
    rw [herr fault rfl]
    exact .nil inside

theorem Balanced.bind {t : Trace α} {f : α → Trace β} (ht : Balanced doc α t)
    (hf : ∀ a, Balanced doc β (f a)) : Balanced doc β (t >>= f) := by
  intro inside rest hok herr
  obtain ⟨events, result⟩ := t
  cases result with
  | error fault =>
    refine ht inside rest (fun a ha => absurd ha (by simp)) fun fault' _ => ?_
    exact herr fault rfl
  | ok a =>
    rw [bind_ok] at hok herr ⊢
    rw [List.append_assoc]
    refine ht inside _ (fun _ _ => ?_) fun fault ha => absurd ha (by simp)
    exact hf a inside rest hok herr

theorem Balanced.bracket {t : Trace Unit} (ht : Balanced doc Unit t) {kind : NodeKind} {pos : Nat}
    (checked : doc.check pos (ViewKind.node kind).size = .ok ()) :
    Balanced doc Unit (do emit ⟨.enter, kind, pos⟩; t; emit ⟨.exit, kind, pos⟩) := by
  intro inside rest hok herr
  obtain ⟨events, result⟩ := t
  rw [emit_bind] at hok herr ⊢
  refine .enter checked ?_
  cases result with
  | error fault =>
    rw [bind_error] at hok herr ⊢
    refine ht _ rest (fun a ha => absurd ha (by simp)) fun fault' _ => ?_
    exact herr fault rfl
  | ok a =>
    have hevents := ht (.view (.node kind) pos :: inside) (⟨.exit, kind, pos⟩ :: rest)
      (fun _ _ => .exit (hok () rfl)) fun fault ha => absurd ha (by simp)
    rw [bind_ok]
    simpa [emit] using hevents

end Trace

theorem Trace.Balanced.kept (doc : Document) : Trace.Kept (Trace.Balanced doc) where
  bind ht hf := ht.bind hf
  read _ := .ofExcept _

open Trace in
theorem Walk.node_balanced (doc : Document) (plan : Plan) (depth : Nat) (kind : NodeKind)
    (pos : Nat) : Balanced doc Unit (Walk.node doc (.ofPlan plan) depth kind pos) := by
  by_cases hk : plan.needed.contains kind = true
  · induction depth generalizing kind pos with
    | zero =>
      -- one level too many, found out before anything is recorded
      rw [node_zero hk]
      exact (Balanced.ofExcept _).bind fun _ => .ofExcept _
    | succ depth ih =>
      have hnode : ∀ kind pos, Balanced doc Unit (node doc (.ofPlan plan) depth kind pos) := by
        intro kind pos
        by_cases hk : plan.needed.contains kind = true
        · exact ih kind pos hk
        · rw [node_of_not_needed hk]
          exact .ofExcept (.ok ())
      have hkept := Balanced.kept doc
      have hchildren := hkept.children doc plan (hkept.viewVia doc plan hnode) (.node kind) pos
      rw [node_succ hk]
      cases hc : doc.check pos (ViewKind.node kind).size with
      | error fault => exact .ofExcept (.error fault)
      | ok u =>
        refine (Balanced.ofExcept (.ok u)).bind fun _ => ?_
        unfold Walk.announce
        by_cases hkey : plan.registered.contains kind
        · simp only [Guide.ofPlan, hkey, if_true]
          exact hchildren.bracket hc
        · simp only [Guide.ofPlan, hkey]
          refine (Balanced.ofExcept (.ok ())).bind fun _ => ?_
          exact hchildren.bind fun _ => .ofExcept (.ok ())
  · rw [node_of_not_needed hk]
    exact .ofExcept (.ok ())

/-- The events of a walk are nested. -/
theorem Document.walk_nested (doc : Document) (plan : Plan) (kind : ViewKind) (pos : Nat) :
    Nested doc [] (doc.walk plan kind pos).events := by
  have hview := (Trace.Balanced.kept doc).viewVia doc plan
    (Walk.node_balanced doc plan doc.options.maxDepth) kind pos
  have hnested := hview [] [] (fun _ _ => .nil []) fun _ _ => rfl
  rwa [List.append_nil] at hnested

end FlatSyntax
