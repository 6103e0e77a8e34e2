import Mathlib
import FlatSyntax.Proofs.Filing
import FlatSyntax.Proofs.Operation

/-!
# Pruning loses and invents nothing

A walk skips what cannot hold a needed node. Set beside the walk of a plan with every kind, it
records the same events as far as kinds with a key go: all of them if the full walk ends well, and at
least those recorded up to the fault otherwise. What it skips holds none of them, because the needed
kinds are closed: a kind that reaches a needed kind is needed.
-/

namespace FlatSyntax

/-! ## Plans -/

namespace Plan

variable {plan full : Plan}

/-- A plan whose sets of kinds are those of its keys. -/
structure Coherent (plan : Plan) : Prop where
  /-- The registered kinds are those with a callback. -/
  keyed : ∀ kind, plan.registered.contains kind = true ↔ ∃ phase, plan.callbacks phase kind ≠ []
  /-- Registered kinds are needed. -/
  registered : ∀ kind, plan.registered.contains kind = true → plan.needed.contains kind = true
  /-- A kind that reaches a needed kind is needed. -/
  closed : ∀ kind : NodeKind, kind.reach.intersects plan.needed = true →
    plan.needed.contains kind = true

theorem coherent_ofKeys (keys : List VisitorKey) : (ofKeys keys).Coherent where
  keyed kind := by
    rw [registered_ofKeys]
    constructor
    · rintro ⟨key, hkey, rfl⟩
      refine ⟨key.phase, List.ne_nil_of_length_pos ?_⟩
      rw [length_callbacks]
      exact List.count_pos_iff.mpr hkey
    · rintro ⟨phase, hne⟩
      obtain ⟨i, hi⟩ := List.exists_mem_of_ne_nil _ hne
      exact ⟨⟨kind, phase⟩, List.mem_of_getElem? (mem_callbacks.mp hi), rfl⟩
  registered _ h := KindSet.contains_needed h
  closed kind h := KindSet.needed_closed _ kind h

/-- A plan that has every key has every kind registered and needed. -/
theorem every_kind {every : List VisitorKey} (honce : ∀ key, every.count key = 1)
    (kind : NodeKind) : (ofKeys every).registered.contains kind = true ∧
      (ofKeys every).needed.contains kind = true := by
  have hregistered : (ofKeys every).registered.contains kind = true := by
    refine registered_ofKeys.mpr ⟨⟨kind, .enter⟩, ?_, rfl⟩
    have hcount : 0 < every.count ⟨kind, .enter⟩ := by
      rw [honce]
      exact Nat.one_pos
    exact List.count_pos_iff.mp hcount
  exact ⟨hregistered, (coherent_ofKeys every).registered kind hregistered⟩

theorem reaches_iff {layout : Layout} :
    plan.reaches layout = true ↔
      ∃ kind, layout.reach.contains kind = true ∧ plan.needed.contains kind = true :=
  KindSet.intersects_iff layout.reach_proper

/-- A node is worth walking iff its kind is needed. -/
theorem reaches_node {kind : NodeKind} :
    plan.reaches (.node kind) = true ↔ plan.needed.contains kind = true := by
  rw [reaches_iff]
  have hreach : ∀ k, (Layout.node kind).reach.contains k = true ↔ kind = k := by
    intro k
    change (KindSet.empty.insert kind).contains k = true ↔ _
    simp
  simp [hreach]

/-- A union is worth walking if the node of one of its variants is. -/
theorem reaches_of_variant {kind : UnionKind} {v : Variant} (hv : v ∈ kind.variants)
    (h : plan.reaches (.node v.node) = true) : plan.reaches (.union kind) = true := by
  refine reaches_iff.mpr ⟨v.node, ?_, reaches_node.mp h⟩
  change (KindSet.ofList (kind.variants.map Variant.node)).contains v.node = true
  simpa using ⟨v, hv, rfl⟩

/-- A view that is worth nothing has no child that is. -/
theorem Coherent.child_unreached (hplan : plan.Coherent) {kind : ViewKind}
    (h : plan.reaches (.view kind) ≠ true) {f : Field} (hf : f ∈ kind.children) :
    plan.reaches f.layout ≠ true := by
  intro hreach
  obtain ⟨k, hk, hneeded⟩ := reaches_iff.mp hreach
  refine h ?_
  cases kind with
  | node kind =>
    refine reaches_node.mpr (hplan.closed kind ?_)
    exact (KindSet.intersects_iff kind.reach_proper).mpr ⟨k, NodeKind.contains_reach hf hk, hneeded⟩
  | record kind => exact reaches_iff.mpr ⟨k, RecordKind.contains_reach hf hk, hneeded⟩

end Plan

theorem UnionKind.mem_of_variant? {kind : UnionKind} {tag : UInt8} {v : Variant}
    (h : kind.variant? tag = some v) : v ∈ kind.variants := List.mem_of_find?_eq_some h

/-! ## Traces without events of interest -/

namespace Trace

variable {α β : Type} {plan : Plan}

/-- The events of a plan: those of kinds with a key. -/
def keyed (plan : Plan) (events : List Event) : List Event :=
  events.filter fun event => plan.registered.contains event.kind

theorem keyed_append (plan : Plan) (a b : List Event) :
    keyed plan (a ++ b) = keyed plan a ++ keyed plan b := List.filter_append ..

/-- A trace that records no event of a plan. -/
def Silent (plan : Plan) (t : Trace α) : Prop := keyed plan t.events = []

theorem Silent.ofExcept (r : Except Fault α) : (ofExcept r).Silent plan := rfl

theorem Silent.bind {t : Trace α} {f : α → Trace β} (ht : t.Silent plan)
    (hf : ∀ a, (f a).Silent plan) : (t >>= f).Silent plan := by
  obtain ⟨events, result⟩ := t
  cases result with
  | error fault => exact ht
  | ok a =>
    rw [bind_ok]
    unfold Silent
    rw [keyed_append, ht, hf a, List.append_nil]

theorem Silent.forM {f : α → Trace Unit} (hf : ∀ a, (f a).Silent plan) (l : List α) :
    (l.forM f).Silent plan := by
  induction l with
  | nil => rfl
  | cons a rest ih => exact (hf a).bind fun _ => ih

/-- A part of a walk that is made only if a layout is worth it. -/
theorem Silent.guarded (full : Plan) (layout : Layout) {t : Trace Unit} (ht : t.Silent plan) :
    Silent plan (do if ← (Walk.Guide.ofPlan full).reaches layout then t) := by
  refine Silent.bind (.ofExcept (.ok _)) fun answer => ?_
  cases answer
  · rfl
  · exact ht

/-- The pruned trace `u` beside the full trace `t`: it ends well if `t` does, with the events of the
plan, and it has recorded at least those if `t` ends in a fault. -/
structure Prunes (plan : Plan) (t u : Trace α) : Prop where
  ok : ∀ a, t.result = .ok a → u.result = .ok a ∧ u.events = keyed plan t.events
  error : ∀ fault, t.result = .error fault → keyed plan t.events <+: u.events

theorem Prunes.ofExcept (r : Except Fault α) :
    Prunes plan (Trace.ofExcept r) (Trace.ofExcept r) :=
  ⟨fun _ h => ⟨h, rfl⟩, fun _ _ => List.nil_prefix⟩

/-- What is skipped holds nothing of interest. -/
theorem Prunes.skip {t : Trace Unit} (ht : t.Silent plan) : Prunes plan t (pure ()) :=
  ⟨fun _ _ => ⟨rfl, ht.symm⟩, fun _ _ => by rw [ht]; exact List.nil_prefix⟩

theorem Prunes.bind {t u : Trace α} {f g : α → Trace β} (ht : Prunes plan t u)
    (hf : ∀ a, Prunes plan (f a) (g a)) : Prunes plan (t >>= f) (u >>= g) := by
  obtain ⟨events, result⟩ := t
  cases result with
  | error fault =>
    -- the pruned trace may go on where the full one has ended
    have hprefix : u.events <+: (u >>= g).events := by
      obtain ⟨events', result'⟩ := u
      cases result' with
      | error fault' => exact List.prefix_refl _
      | ok a => exact List.prefix_append ..
    refine ⟨fun a h => absurd h (by simp [bind_error]), fun _ _ => ?_⟩
    exact (ht.error fault rfl).trans hprefix
  | ok a =>
    obtain ⟨hresult, hevents⟩ := ht.ok a rfl
    obtain ⟨events', result'⟩ := u
    simp only at hresult hevents
    subst hresult hevents
    rw [bind_ok, bind_ok]
    refine ⟨fun b hb => ?_, fun fault hfault => ?_⟩
    · obtain ⟨hresult, hevents⟩ := (hf a).ok b hb
      exact ⟨hresult, by rw [keyed_append, hevents]⟩
    · rw [keyed_append]
      exact List.prefix_append_right_inj _ |>.mpr ((hf a).error fault hfault)

theorem Prunes.forM {f g : α → Trace Unit} (l : List α)
    (hf : ∀ a ∈ l, Prunes plan (f a) (g a)) : Prunes plan (l.forM f) (l.forM g) := by
  induction l with
  | nil => exact .ofExcept (.ok ())
  | cons a rest ih =>
    refine (hf a List.mem_cons_self).bind fun _ => ?_
    exact ih fun b hb => hf b (List.mem_cons_of_mem a hb)

end Trace

/-! ## Walks -/

namespace Walk

open Trace

variable {doc : Document} {plan full : Plan}

/-- A walk of any plan through a value that is worth nothing to another records nothing for it. -/
theorem value_silent {view : ViewKind → Nat → Trace Unit}
    (hview : ∀ kind pos, plan.reaches (.view kind) ≠ true → (view kind pos).Silent plan)
    (layout : Layout) (pos : Nat) (h : plan.reaches layout ≠ true) :
    (value doc (.ofPlan full) view layout pos).Silent plan := by
  induction layout generalizing pos with
  | view kind => exact hview kind pos h
  | union kind =>
    refine .guarded full (.union kind) (.bind (.ofExcept _) fun tag => ?_)
    split
    · rename_i v hv
      have hnode : plan.reaches (.node v.node) ≠ true := fun hv' =>
        h (Plan.reaches_of_variant (UnionKind.mem_of_variant? hv) hv')
      split
      · exact hview _ _ hnode
      · exact .guarded full _ (.bind (.ofExcept _) fun target => hview _ _ hnode)
    · exact .ofExcept _
  | boxed layout ih => exact .guarded full layout (.bind (.ofExcept _) fun target => ih target h)
  | sequence element ih =>
    refine .guarded full element (.bind (.ofExcept _) fun pointer => ?_)
    refine .bind (.ofExcept _) fun length => .bind (.ofExcept _) fun _ => ?_
    exact .forM (fun index => ih _ h) _
  | optional layout ih =>
    refine .guarded full layout (.bind (.ofExcept _) fun absent => ?_)
    cases absent
    · exact ih pos h
    · rfl
  | _ => rfl

theorem children_silent (hplan : plan.Coherent) {view : ViewKind → Nat → Trace Unit}
    (hview : ∀ kind pos, plan.reaches (.view kind) ≠ true → (view kind pos).Silent plan)
    {kind : ViewKind} (pos : Nat) (h : plan.reaches (.view kind) ≠ true) :
    (children doc (.ofPlan full) view kind pos).Silent plan := by
  have hfields : ∀ fields : List Field, (∀ f ∈ fields, plan.reaches f.layout ≠ true) →
      (fields.forM fun field => value doc (.ofPlan full) view field.layout
        (doc.offset pos field.offset)).Silent plan := by
    intro fields hall
    induction fields with
    | nil => rfl
    | cons f rest ih =>
      refine (value_silent hview f.layout _ (hall f List.mem_cons_self)).bind fun _ => ?_
      exact ih fun g hg => hall g (List.mem_cons_of_mem f hg)
  exact hfields kind.children fun f hf => hplan.child_unreached h hf

theorem record_silent (hplan : plan.Coherent) {node : NodeKind → Nat → Trace Unit}
    (hnode : ∀ kind pos, plan.needed.contains kind ≠ true → (node kind pos).Silent plan)
    (level : Nat) (kind : RecordKind) (pos : Nat) (h : plan.reaches (.record kind) ≠ true) :
    (record doc (.ofPlan full) node level kind pos).Silent plan := by
  induction level generalizing kind pos with
  | zero => rfl
  | succ level ih =>
    refine .guarded full (.record kind) (.bind (.ofExcept _) fun _ => ?_)
    refine children_silent hplan (fun inner p hinner => ?_) pos h
    cases inner with
    | node inner => exact hnode inner p fun hn => hinner (Plan.reaches_node.mpr hn)
    | record inner => exact ih inner p hinner

theorem viewVia_silent (hplan : plan.Coherent) {node : NodeKind → Nat → Trace Unit}
    (hnode : ∀ kind pos, plan.needed.contains kind ≠ true → (node kind pos).Silent plan)
    (kind : ViewKind) (pos : Nat) (h : plan.reaches (.view kind) ≠ true) :
    (viewVia doc (.ofPlan full) node kind pos).Silent plan := by
  cases kind with
  | node kind => exact hnode kind pos fun hn => h (Plan.reaches_node.mpr hn)
  | record kind => exact record_silent hplan hnode _ kind pos h

theorem announce_silent (hplan : plan.Coherent) (phase : Phase) (kind : NodeKind) (pos : Nat)
    (h : plan.needed.contains kind ≠ true) :
    (announce (.ofPlan full) phase kind pos).Silent plan := by
  have hkind : plan.registered.contains kind = false := by
    by_contra hr
    exact h (hplan.registered kind (by simpa using hr))
  unfold announce
  split
  · simp [Silent, keyed, Guide.ofPlan, emit, hkind]
  · rfl

/-- A node whose kind is not needed is no event of the plan, and has none below it. -/
theorem node_silent (hplan : plan.Coherent) (depth : Nat) (kind : NodeKind) (pos : Nat)
    (h : plan.needed.contains kind ≠ true) :
    (node doc (.ofPlan full) depth kind pos).Silent plan := by
  by_cases hfull : full.needed.contains kind = true
  · induction depth generalizing kind pos with
    | zero =>
      rw [node_zero hfull]
      exact .bind (.ofExcept _) fun _ => .ofExcept _
    | succ depth ih =>
      have hnode : ∀ kind pos, plan.needed.contains kind ≠ true →
          (node doc (.ofPlan full) depth kind pos).Silent plan := by
        intro kind pos hn
        by_cases hfull : full.needed.contains kind = true
        · exact ih kind pos hn hfull
        · rw [node_of_not_needed hfull]
          rfl
      have hchildren : plan.reaches (.node kind) ≠ true := fun hr => h (Plan.reaches_node.mp hr)
      rw [node_succ hfull]
      refine .bind (.ofExcept _) fun _ => ?_
      refine (announce_silent hplan .enter kind pos h).bind fun _ => ?_
      refine (children_silent hplan (viewVia_silent hplan hnode) pos hchildren).bind fun _ => ?_
      exact announce_silent hplan .exit kind pos h
  · rw [node_of_not_needed hfull]
    rfl

/-! ## The pruned walk beside the full one -/

section Prunes

variable (hplan : plan.Coherent) (hfull : ∀ kind, full.registered.contains kind = true)
  (hneeded : ∀ kind, full.needed.contains kind = true)

include hneeded in
theorem reaches_full {layout : Layout} (h : plan.reaches layout = true) :
    full.reaches layout = true := by
  obtain ⟨kind, hk, _⟩ := Plan.reaches_iff.mp h
  exact Plan.reaches_iff.mpr ⟨kind, hk, hneeded kind⟩

include hneeded in
/-- A part of a walk that is made only if a layout is worth it: the pruned walk may skip it. -/
theorem guarded_prunes {layout : Layout} {x y : Trace Unit} (hx : Prunes plan x y)
    (hskip : plan.reaches layout ≠ true →
      Silent plan (do if ← (Guide.ofPlan full).reaches layout then x)) :
    Prunes plan (do if ← (Guide.ofPlan full).reaches layout then x)
      (do if ← (Guide.ofPlan plan).reaches layout then y) := by
  by_cases hr : plan.reaches layout = true
  · change Prunes plan (if full.reaches layout = true then x else pure ())
      (if plan.reaches layout = true then y else pure ())
    rw [if_pos (reaches_full hneeded hr), if_pos hr]
    exact hx
  · have hpruned : (do if ← (Guide.ofPlan plan).reaches layout then y) = (pure () : Trace Unit) :=
      if_neg hr
    rw [hpruned]
    exact .skip (hskip hr)

include hneeded in
theorem value_prunes {view view' : ViewKind → Nat → Trace Unit}
    (hview : ∀ kind pos, Prunes plan (view kind pos) (view' kind pos))
    (hsilent : ∀ kind pos, plan.reaches (.view kind) ≠ true → (view kind pos).Silent plan)
    (layout : Layout) (pos : Nat) :
    Prunes plan (value doc (.ofPlan full) view layout pos)
      (value doc (.ofPlan plan) view' layout pos) := by
  induction layout generalizing pos with
  | view kind => exact hview kind pos
  | union kind =>
    refine guarded_prunes hneeded ?_ fun h => value_silent hsilent (.union kind) pos h
    refine .bind (.ofExcept _) fun tag => ?_
    split
    · rename_i v hv
      split
      · exact hview _ _
      · refine guarded_prunes hneeded (.bind (.ofExcept _) fun target => hview _ _) fun h => ?_
        exact .guarded full _ (.bind (.ofExcept _) fun target => hsilent _ _ h)
    · exact .ofExcept _
  | boxed layout ih =>
    refine guarded_prunes hneeded ?_ fun h => value_silent hsilent (.boxed layout) pos h
    exact .bind (.ofExcept _) fun target => ih target
  | sequence element ih =>
    refine guarded_prunes hneeded ?_ fun h => value_silent hsilent (.sequence element) pos h
    refine .bind (.ofExcept _) fun pointer => .bind (.ofExcept _) fun length => ?_
    exact .bind (.ofExcept _) fun _ => .forM _ fun index _ => ih _
  | optional layout ih =>
    refine guarded_prunes hneeded ?_ fun h => value_silent hsilent (.optional layout) pos h
    refine .bind (.ofExcept _) fun absent => ?_
    cases absent
    · exact ih pos
    · exact .ofExcept (.ok ())
  | _ => exact .ofExcept (.ok ())

include hneeded in
theorem children_prunes {view view' : ViewKind → Nat → Trace Unit}
    (hview : ∀ kind pos, Prunes plan (view kind pos) (view' kind pos))
    (hsilent : ∀ kind pos, plan.reaches (.view kind) ≠ true → (view kind pos).Silent plan)
    (kind : ViewKind) (pos : Nat) :
    Prunes plan (children doc (.ofPlan full) view kind pos)
      (children doc (.ofPlan plan) view' kind pos) :=
  .forM _ fun field _ => value_prunes hneeded hview hsilent field.layout _

include hplan hneeded in
theorem viewVia_prunes {node node' : NodeKind → Nat → Trace Unit}
    (hnode : ∀ kind pos, Prunes plan (node kind pos) (node' kind pos))
    (hsilent : ∀ kind pos, plan.needed.contains kind ≠ true → (node kind pos).Silent plan)
    (kind : ViewKind) (pos : Nat) :
    Prunes plan (viewVia doc (.ofPlan full) node kind pos)
      (viewVia doc (.ofPlan plan) node' kind pos) := by
  have hrecord : ∀ level kind pos, Prunes plan (record doc (.ofPlan full) node level kind pos)
      (record doc (.ofPlan plan) node' level kind pos) := by
    intro level
    induction level with
    | zero => exact fun _ _ => .ofExcept (.ok ())
    | succ level ih =>
      intro kind pos
      refine guarded_prunes hneeded ?_ fun h => record_silent hplan hsilent (level + 1) kind pos h
      refine .bind (.ofExcept _) fun _ => children_prunes hneeded ?_ ?_ (.record kind) pos
      · intro inner p
        cases inner with
        | node inner => exact hnode inner p
        | record inner => exact ih inner p
      · intro inner p hinner
        cases inner with
        | node inner => exact hsilent inner p fun hn => hinner (Plan.reaches_node.mpr hn)
        | record inner => exact record_silent hplan hsilent level inner p hinner
  cases kind with
  | node kind => exact hnode kind pos
  | record kind => exact hrecord _ kind pos

include hfull in
theorem announce_prunes (phase : Phase) (kind : NodeKind) (pos : Nat) :
    Prunes plan (announce (.ofPlan full) phase kind pos)
      (announce (.ofPlan plan) phase kind pos) := by
  unfold announce
  by_cases hk : plan.registered.contains kind = true
  · simp only [Guide.ofPlan, hk, hfull kind, if_true]
    refine ⟨fun _ h => ⟨h, ?_⟩, fun _ h => absurd h (by simp [emit])⟩
    simp [keyed, emit, hk]
  · simp only [Guide.ofPlan, hk, hfull kind, if_true]
    refine ⟨fun _ _ => ⟨rfl, ?_⟩, fun _ h => absurd h (by simp [emit])⟩
    simp [keyed, emit, hk]

include hplan hfull hneeded in
/-- The same bytes are checked and the same levels counted wherever both walks go. -/
theorem node_prunes (depth : Nat) (kind : NodeKind) (pos : Nat) :
    Prunes plan (node doc (.ofPlan full) depth kind pos)
      (node doc (.ofPlan plan) depth kind pos) := by
  by_cases hk : plan.needed.contains kind = true
  · induction depth generalizing kind pos with
    | zero =>
      rw [node_zero (hneeded kind), node_zero hk]
      exact .bind (.ofExcept _) fun _ => .ofExcept _
    | succ depth ih =>
      have hsilent : ∀ kind pos, plan.needed.contains kind ≠ true →
          (node doc (.ofPlan full) depth kind pos).Silent plan := node_silent hplan depth
      have hnode : ∀ kind pos, Prunes plan (node doc (.ofPlan full) depth kind pos)
          (node doc (.ofPlan plan) depth kind pos) := by
        intro kind pos
        by_cases hk : plan.needed.contains kind = true
        · exact ih kind pos hk
        · rw [node_of_not_needed hk]
          exact .skip (hsilent kind pos hk)
      rw [node_succ (hneeded kind), node_succ hk]
      refine .bind (.ofExcept _) fun _ => (announce_prunes hfull .enter kind pos).bind fun _ => ?_
      refine Prunes.bind ?_ fun _ => announce_prunes hfull .exit kind pos
      exact children_prunes hneeded (viewVia_prunes hplan hneeded hnode hsilent)
        (viewVia_silent hplan hsilent) (.node kind) pos
  · rw [node_of_not_needed hk]
    exact .skip (node_silent hplan depth kind pos hk)

include hplan hfull hneeded in
/-- The walk of a plan beside the walk of a plan with every kind. -/
theorem walk_prunes (kind : ViewKind) (pos : Nat) :
    Prunes plan (doc.walk full kind pos) (doc.walk plan kind pos) :=
  viewVia_prunes hplan hneeded (node_prunes hplan hfull hneeded _) (node_silent hplan _) kind pos

end Prunes

end Walk

/-! ## Runs -/

namespace VisitorKey

/-- Every key, once. -/
def every : List VisitorKey :=
  NodeKind.all.flatMap fun kind => [⟨kind, .enter⟩, ⟨kind, .exit⟩]

theorem count_every (key : VisitorKey) : every.count key = 1 := by
  refine List.count_eq_one_of_mem ?_ ?_
  · unfold every
    rw [List.nodup_flatMap]
    refine ⟨fun kind _ => by simp, NodeKind.nodup_all.imp fun {a b} hne => ?_⟩
    simp [Function.onFun, List.disjoint_left, hne]
  · refine List.mem_flatMap.mpr ⟨key.kind, key.kind.mem_all, ?_⟩
    obtain ⟨kind, phase⟩ := key
    cases phase <;> simp

end VisitorKey

/-- The positions of the keys that name the kind and the phase of an event, in order. -/
def keysFor (keys : List String) (event : Event) : List Nat :=
  (keys.zipIdx.filter fun (key, _) =>
    (VisitorKey.parse key).toOption = some ⟨event.kind, event.phase⟩).map Prod.snd

/-- The log that keys make of events: each event for each key that names it. -/
def restricted (keys : List String) (events : List Event) : List (Nat × Event) :=
  events.flatMap fun event => (keysFor keys event).map fun key => (key, event)

namespace Plan

variable {plan : Plan}

/-- The callbacks of a plan are those of its keys as they were given. -/
theorem callbacks_ofKeys {keys : List String} {parsed : List VisitorKey}
    (h : keys.mapM VisitorKey.parse = .ok parsed) (event : Event) :
    (ofKeys parsed).callbacks event.phase event.kind = keysFor keys event := by
  rw [callbacks_eq]
  unfold keysFor
  generalize 0 = n
  induction keys generalizing parsed n with
  | nil =>
    cases h
    rfl
  | cons key rest ih =>
    rw [List.mapM_cons] at h
    cases hk : VisitorKey.parse key with
    | error fault =>
      rw [hk] at h
      cases h
    | ok first =>
      rw [hk] at h
      cases hr : rest.mapM VisitorKey.parse with
      | error fault =>
        rw [hr] at h
        cases h
      | ok others =>
        rw [hr] at h
        cases h
        have htail := ih hr (n + 1)
        have hfirst : (VisitorKey.parse key).toOption = some first := by
          rw [hk]
          rfl
        simp only [List.zipIdx_cons, List.filter_cons, hfirst, Option.some.injEq]
        split
        · simp only [List.map_cons, htail]
        · exact htail

theorem compile_eq {keys : List String} {v : Visitor} (h : Visitor.compile keys = .ok v) :
    v.plan.Coherent ∧
      ∀ event, v.plan.callbacks event.phase event.kind = keysFor keys event := by
  obtain ⟨parsed, hparsed, rfl⟩ := Visitor.parsed_of_compile h
  exact ⟨coherent_ofKeys parsed, callbacks_ofKeys hparsed⟩

/-- An event of a kind without a key calls nothing. -/
theorem Coherent.callbacks_eq_nil (hplan : plan.Coherent) {event : Event}
    (h : plan.registered.contains event.kind ≠ true) :
    plan.callbacks event.phase event.kind = [] := by
  by_contra hne
  exact h ((hplan.keyed event.kind).mpr ⟨event.phase, hne⟩)

/-- A plan that has every key once calls one callback for each event. -/
theorem calls_map_event {α : Type} {every : List VisitorKey} (honce : ∀ key, every.count key = 1)
    (sight : Event → α) (events : List Event) :
    ((ofKeys every).calls sight events).map Call.event = events := by
  induction events with
  | nil => rfl
  | cons event rest ih =>
    have hone := (length_callbacks every ⟨event.kind, event.phase⟩).trans (honce _)
    obtain ⟨key, hkey⟩ := List.length_eq_one_iff.mp hone
    have hcons : (ofKeys every).calls sight (event :: rest) =
        ⟨key, event, sight event⟩ :: (ofKeys every).calls sight rest := by
      unfold calls
      rw [List.flatMap_cons, hkey]
      rfl
    rw [hcons, List.map_cons, ih]

end Plan

namespace Session

variable {α : Type}

/-- The log of a run: the position of the key and the event of each call. -/
def Outcome.log (outcome : Outcome α) : List (Nat × Event) :=
  outcome.calls.map fun call => (call.key, call.event)

/-- The run of some keys beside the run of a visitor with every kind. -/
structure RestrictsTo (keys : List String) (full pruned : Outcome α) : Prop where
  /-- If the full run ends well, so does the other, with exactly the events that its keys name. -/
  ok : full.fault = none → pruned.fault = none ∧
    pruned.log = restricted keys (full.calls.map Call.event)
  /-- If the full run ends in a fault, the other has called at least for those events. -/
  fault : full.fault ≠ none → restricted keys (full.calls.map Call.event) <+: pruned.log
  /-- The other run fails only if the full one does. -/
  only : pruned.fault ≠ none → full.fault ≠ none

theorem log_calls {plan : Plan} {keys : List String} (hplan : plan.Coherent)
    (hkeys : ∀ event, plan.callbacks event.phase event.kind = keysFor keys event)
    (sight : Event → α) (events : List Event) :
    (plan.calls sight events).map (fun call => (call.key, call.event)) = restricted keys events ∧
      restricted keys events = restricted keys (Trace.keyed plan events) := by
  constructor
  · unfold Plan.calls restricted
    rw [List.map_flatMap]
    simp only [hkeys, List.map_map]
    rfl
  · induction events with
    | nil => rfl
    | cons event rest ih =>
      by_cases hk : plan.registered.contains event.kind = true
      · have hkeyed : Trace.keyed plan (event :: rest) = event :: Trace.keyed plan rest := by
          simp [Trace.keyed, hk]
        rw [hkeyed]
        unfold restricted at ih ⊢
        rw [List.flatMap_cons, List.flatMap_cons, ih]
      · have hkeyed : Trace.keyed plan (event :: rest) = Trace.keyed plan rest := by
          simp [Trace.keyed, hk]
        have hnone : keysFor keys event = [] := by
          rw [← hkeys]
          exact hplan.callbacks_eq_nil hk
        rw [hkeyed, ← ih]
        unfold restricted
        rw [List.flatMap_cons, hnone]
        rfl

theorem restricted_prefix {keys : List String} {a b : List Event} (h : a <+: b) :
    restricted keys a <+: restricted keys b := by
  obtain ⟨c, rfl⟩ := h
  unfold restricted
  rw [List.flatMap_append]
  exact List.prefix_append ..

/-- Outcomes beside one another, from the walks beside one another. -/
theorem RestrictsTo.of_prunes {plan : Plan} {keys : List String} {t u : Trace Unit}
    {full pruned : Outcome α} (hplan : plan.Coherent)
    (hkeys : ∀ event, plan.callbacks event.phase event.kind = keysFor keys event)
    (hwalk : t.Prunes plan u) (hevents : full.calls.map Call.event = t.events)
    (hfault : full.fault = t.fault?) (hlog : pruned.log = restricted keys u.events)
    (hfault' : pruned.fault = u.fault?) : RestrictsTo keys full pruned := by
  have hkeyed := fun events => (log_calls hplan hkeys (fun _ => ()) events).2
  have hok : ∀ a, t.result = .ok a → pruned.fault = none := by
    intro a ha
    rw [hfault', Trace.fault?, (hwalk.ok a ha).1]
  unfold Trace.fault? at hfault
  cases hr : t.result with
  | ok a =>
    rw [hr] at hfault
    refine ⟨fun _ => ⟨hok a hr, ?_⟩, fun h => absurd hfault h, fun h => absurd (hok a hr) h⟩
    rw [hlog, (hwalk.ok a hr).2, hevents]
    exact (hkeyed _).symm
  | error fault =>
    rw [hr] at hfault
    refine ⟨fun h => ?_, fun _ => ?_, fun _ => ?_⟩
    · rw [hfault] at h
      cases h
    · rw [hlog, hevents, hkeyed]
      exact restricted_prefix (hwalk.error fault hr)
    · rw [hfault]
      exact Option.some_ne_none fault

/-- Running a visitor calls exactly for the events that its keys name, as far as a visitor with every
kind gets. The two may be run in one session or in two, and their callbacks may do anything. -/
theorem run_restrictsTo {doc : Document} {s t : Session} (hs : Reachable doc s)
    (ht : Reachable doc t) {kind : ViewKind} {pos : Nat} {item twin : Link}
    (hi : s.heap.Live item) (hplace : item.place = .view kind pos)
    (htwin : t.heap.Live twin) (hplace' : twin.place = .view kind pos)
    {every : List VisitorKey} {keys : List String} {full fresh visitor : Visitor}
    (honce : ∀ key, every.count key = 1) (hfull : full.plan = .ofKeys every)
    (hkeys : Visitor.compile keys = .ok fresh) (hreused : fresh.Reused visitor)
    (callback callback' : Event → Session → List Operation) :
    RestrictsTo keys ((run full (carryOut callback) item).run s).1
      ((run visitor (carryOut callback') twin).run t).1 := by
  obtain ⟨hsdoc, hssound, hsdepth⟩ := hs.sound
  obtain ⟨htdoc, htsound, htdepth⟩ := ht.sound
  obtain ⟨_, hcalls, hfault⟩ := run_run (carryOut_answers s.document callback) hssound hsdepth hi
    hplace full
  obtain ⟨_, hcalls', hfault'⟩ := run_run (carryOut_answers t.document callback') htsound htdepth
    htwin hplace' visitor
  rw [hsdoc] at hcalls hfault
  rw [htdoc, hreused.plan_eq] at hcalls' hfault'
  obtain ⟨hplan, hcallbacks⟩ := Plan.compile_eq hkeys
  have hkinds : ∀ kind, full.plan.registered.contains kind = true ∧
      full.plan.needed.contains kind = true := hfull ▸ Plan.every_kind honce
  have hwalk : (doc.walk full.plan kind pos).Prunes fresh.plan (doc.walk fresh.plan kind pos) :=
    Walk.walk_prunes hplan (fun kind => (hkinds kind).1) (fun kind => (hkinds kind).2) kind pos
  refine .of_prunes hplan hcallbacks hwalk ?_ hfault ?_ hfault'
  · rw [hcalls, hfull]
    exact Plan.calls_map_event honce (fun _ => ()) _
  · unfold Outcome.log
    rw [hcalls']
    exact (log_calls hplan hcallbacks _ _).1

/-- A visitor with every kind. -/
def fullVisitor : Visitor := { plan := .ofKeys VisitorKey.every }

theorem fullVisitor_plan : fullVisitor.plan = .ofKeys VisitorKey.every := rfl

/-- A visitor that has no use for literals. -/
def statementsVisitor : Visitor :=
  { plan := .ofKeys [⟨.blockStatement, .exit⟩, ⟨.debuggerStatement, .enter⟩] }

theorem statementsVisitor_compiled :
    Visitor.compile ["BlockStatement:exit", "DebuggerStatement"] = .ok statementsVisitor :=
  Visitor.compile_of_parsed rfl

/-- The literal of a block is skipped by a visitor that does not need it. If it lies outside of the
buffer, the visitor with every kind fails, and the other one does not find out. -/
theorem run_restrictsTo_block :
    (∀ literal, RestrictsTo ["BlockStatement:exit", "DebuggerStatement"]
      ((run fullVisitor (carryOut fun _ _ => []) blockNode).run (insideBlock literal 256)).1
      ((run statementsVisitor (carryOut fun _ _ => [.release "a"]) blockNode).run
        (insideBlock literal 256)).1) ∧
    ((run fullVisitor (carryOut fun _ _ => []) blockNode).run (insideBlock 88 256)).1.fault =
      none ∧
    ((run fullVisitor (carryOut fun _ _ => []) blockNode).run (insideBlock 4096 256)).1.fault =
      some (.outOfBounds 4096 12 112) ∧
    ((run statementsVisitor (carryOut fun _ _ => [.release "a"]) blockNode).run
      (insideBlock 4096 256)).1.log =
        [(1, ⟨.enter, .debuggerStatement, 104⟩), (0, ⟨.exit, .blockStatement, 0⟩)] := by
  refine ⟨fun literal => ?_, by decide +kernel, by decide +kernel, by decide +kernel⟩
  exact run_restrictsTo (insideBlock_reachable literal 256) (insideBlock_reachable literal 256)
    (blockNode_live literal 256) rfl (blockNode_live literal 256) rfl VisitorKey.count_every
    fullVisitor_plan statementsVisitor_compiled .refl _ _

end Session

end FlatSyntax
