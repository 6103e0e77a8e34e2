import Mathlib
import FlatSyntax.Proofs.Cutoff
import FlatSyntax.Proofs.PlainWalk

/-!
# Walks are well bracketed

The log of a visitor with every kind is a bracketing: entering a node opens it, and only the node that
was opened last can be left. As long as a run goes on, no more nodes are open than the limit allows.
If the run ends well they have all been left, and what lies between entering a node and leaving it is
what a run on that node alone records. If the run ends because it would nest past the limit, exactly
as many nodes are open as the limit says.

What a node records does not depend on the levels that are left when the walk gets there, since fewer
levels only cut a walk off. That is why the part of a log that belongs to a node is the log of the node
on its own.
-/

namespace FlatSyntax

/-! ## Bracketings -/

/-- The nodes that are open after events, innermost first, given those that were open before. Only
the innermost node can be left. -/
def opened? : List (NodeKind × Nat) → List Event → Option (List (NodeKind × Nat))
  | inside, [] => some inside
  | inside, ⟨.enter, kind, pos⟩ :: rest => opened? ((kind, pos) :: inside) rest
  | [], ⟨.exit, _, _⟩ :: _ => none
  | node :: outer, ⟨.exit, kind, pos⟩ :: rest =>
    if node = (kind, pos) then opened? outer rest else none

/-- Every node that is entered is left, and they are left in turn. -/
def Bracketed (events : List Event) : Prop := opened? [] events = some []

instance (events : List Event) : Decidable (Bracketed events) :=
  inferInstanceAs (Decidable (opened? [] events = some []))

variable {inside outer r : List (NodeKind × Nat)} {a b : List Event} {kind : NodeKind}
  {pos : Nat}

@[simp] theorem opened?_nil : opened? inside [] = some inside := by cases inside <;> rfl

@[simp] theorem opened?_enter (rest : List Event) :
    opened? inside (⟨.enter, kind, pos⟩ :: rest) = opened? ((kind, pos) :: inside) rest := by
  cases inside <;> rfl

@[simp] theorem opened?_exit (rest : List Event) :
    opened? ((kind, pos) :: outer) (⟨.exit, kind, pos⟩ :: rest) = opened? outer rest := if_pos rfl

theorem opened?_append : opened? inside (a ++ b) = (opened? inside a).bind (opened? · b) := by
  fun_induction opened? inside a with
  | case1 inside => rfl
  | case2 inside kind pos rest ih => rw [List.cons_append, opened?_enter, ih]
  | case3 kind pos rest => rfl
  | case4 outer kind pos rest ih => rw [List.cons_append, opened?_exit, ih]
  | case5 node outer kind pos rest hne =>
    rw [List.cons_append, opened?, if_neg hne]
    rfl

/-- Nodes that were open before stay open below those that are opened. -/
theorem opened?_below (h : opened? inside a = some r) (outer : List (NodeKind × Nat)) :
    opened? (inside ++ outer) a = some (r ++ outer) := by
  fun_induction opened? inside a with
  | case1 inside =>
    cases h
    rw [opened?_nil]
  | case2 inside kind pos rest ih =>
    rw [opened?_enter]
    exact ih h
  | case3 kind pos rest => cases h
  | case4 inside kind pos rest ih =>
    rw [List.cons_append, opened?_exit]
    exact ih h
  | case5 node inside kind pos rest hne => cases h

theorem opened?_entered (h : opened? [] a = some r) :
    opened? [] (⟨.enter, kind, pos⟩ :: a) = some (r ++ [(kind, pos)]) := by
  rw [opened?_enter]
  exact opened?_below h [(kind, pos)]

theorem Bracketed.skip (h : Bracketed a) : opened? inside (a ++ b) = opened? inside b := by
  have ha : opened? inside a = some inside := opened?_below h inside
  rw [opened?_append, ha]
  rfl

/-- Open nodes can be left. -/
theorem exists_bracketed (h : opened? [] a = some r) : ∃ rest, Bracketed (a ++ rest) := by
  refine ⟨r.map fun node => ⟨.exit, node.1, node.2⟩, ?_⟩
  unfold Bracketed
  rw [opened?_append, h]
  clear h
  induction r with
  | nil => rfl
  | cons node rest ih => exact (opened?_exit _).trans ih

/-! ## Whole nodes -/

/-- Events of nodes one after the other, each with the events that `walk` records for it. -/
inductive Whole (walk : NodeKind → Nat → Trace Unit) : List Event → Prop where
  /-- No node. -/
  | nil : Whole walk []
  /-- A node, what is inside of it, and what comes after it. -/
  | node {kind : NodeKind} {pos : Nat} {inner rest : List Event}
      (walked : walk kind pos =
        ⟨⟨.enter, kind, pos⟩ :: (inner ++ [⟨.exit, kind, pos⟩]), .ok ()⟩)
      (hinner : Whole walk inner) (hrest : Whole walk rest) :
      Whole walk (⟨.enter, kind, pos⟩ :: (inner ++ ⟨.exit, kind, pos⟩ :: rest))

namespace Whole

variable {walk : NodeKind → Nat → Trace Unit}

theorem append (ha : Whole walk a) (hb : Whole walk b) : Whole walk (a ++ b) := by
  induction ha with
  | nil => exact hb
  | node walked hinner _ _ ih =>
    rw [List.cons_append, List.append_assoc, List.cons_append]
    exact .node walked hinner ih

theorem bracketed (h : Whole walk a) : Bracketed a := by
  induction h with
  | nil => rfl
  | node _ _ _ hinner hrest =>
    unfold Bracketed
    rw [opened?_enter, hinner.skip, opened?_exit]
    exact hrest

/-- Wherever a node is entered, it is left later on, and what is recorded from there to here is what
is recorded for the node. -/
theorem segment {events before rest : List Event} (h : Whole walk events)
    (heq : events = before ++ ⟨.enter, kind, pos⟩ :: rest) :
    ∃ inner after, rest = inner ++ ⟨.exit, kind, pos⟩ :: after ∧ Bracketed inner ∧
      walk kind pos = ⟨⟨.enter, kind, pos⟩ :: (inner ++ [⟨.exit, kind, pos⟩]), .ok ()⟩ := by
  -- the node is the first one, inside of the first one, or after it
  induction h generalizing before rest with
  | nil => simp at heq
  | @node k p inner after walked hinner _ ihinner ihafter =>
    cases before with
    | nil =>
      cases heq
      exact ⟨inner, after, rfl, hinner.bracketed, walked⟩
    | cons event before =>
      obtain ⟨_, heq⟩ := List.cons.inj heq
      rcases List.append_eq_append_iff.mp heq with ⟨c, hbefore, hc⟩ | ⟨c, hc, hrest⟩
      · cases c with
        | nil => cases hc
        | cons event c =>
          obtain ⟨_, hc⟩ := List.cons.inj hc
          exact ihafter hc
      · cases c with
        | nil => cases hrest
        | cons event c =>
          obtain ⟨rfl, rfl⟩ := List.cons.inj hrest
          obtain ⟨inner', after', rfl, hinner', hwalk⟩ := ihinner hc
          exact ⟨inner', after' ++ ⟨.exit, k, p⟩ :: after, by simp, hinner', hwalk⟩

end Whole

/-! ## Walks -/

namespace Trace

/-- A trace with `depth` levels left of a limit. -/
structure Nests (walk : NodeKind → Nat → Trace Unit) (limit depth : Nat) (α : Type)
    (t : Trace α) : Prop where
  /-- If it ends well, it has recorded whole nodes. -/
  whole : ∀ a, t.result = .ok a → Whole walk t.events
  /-- At no time are more nodes open than there are levels. -/
  bounded : ∀ front, front <+: t.events →
    ∃ inside, opened? [] front = some inside ∧ inside.length ≤ depth
  /-- If it runs out of levels, as many nodes are open. -/
  deep : ∀ n, t.result = .error (.tooDeep n) →
    n = limit ∧ ∃ inside, opened? [] t.events = some inside ∧ inside.length = depth

variable {walk : NodeKind → Nat → Trace Unit} {limit depth : Nat}

theorem Nests.kept (walk : NodeKind → Nat → Trace Unit) (limit depth : Nat) :
    Kept (Nests walk limit depth) where
  read {α r} hr := by
    refine ⟨fun _ _ => .nil, fun front hfront => ⟨[], ?_, Nat.zero_le _⟩, fun n h => ?_⟩
    · rw [List.prefix_nil.mp hfront]
      rfl
    · exact absurd h (hr n)
  bind {α β t f} ht hf := by
    obtain ⟨events, result⟩ := t
    cases result with
    | error fault =>
      refine ⟨nofun, ht.bounded, fun n hn => ?_⟩
      cases hn
      exact ht.deep n rfl
    | ok x =>
      have hevents : Whole walk events := ht.whole x rfl
      rw [bind_ok]
      refine ⟨fun b hb => hevents.append ((hf x).whole b hb), fun front hfront => ?_, ?_⟩
      · -- what was recorded up to some time is part of the first events, or all of them and more
        obtain ⟨tail, htail⟩ := hfront
        rcases List.append_eq_append_iff.mp htail with ⟨c, hevents', _⟩ | ⟨c, rfl, hc⟩
        · exact ht.bounded front ⟨c, hevents'.symm⟩
        · rw [hevents.bracketed.skip]
          exact (hf x).bounded c ⟨tail, hc.symm⟩
      · intro n hn
        rw [hevents.bracketed.skip]
        exact (hf x).deep n hn

/-- Entering a node and leaving it takes one level. -/
theorem Nests.bracket {t : Trace Unit} (ht : Nests walk limit depth Unit t)
    (walked : ∀ inner, t = ⟨inner, .ok ()⟩ → walk kind pos =
      ⟨⟨.enter, kind, pos⟩ :: (inner ++ [⟨.exit, kind, pos⟩]), .ok ()⟩) :
    Nests walk limit (depth + 1) Unit
      (do emit ⟨.enter, kind, pos⟩; t; emit ⟨.exit, kind, pos⟩) := by
  obtain ⟨events, result⟩ := t
  have hinside : ∀ front, front <+: ⟨.enter, kind, pos⟩ :: events →
      ∃ inside, opened? [] front = some inside ∧ inside.length ≤ depth + 1 := by
    intro front hfront
    rcases List.prefix_cons_iff.mp hfront with rfl | ⟨inner, rfl, hinner⟩
    · exact ⟨[], rfl, Nat.zero_le _⟩
    · obtain ⟨inside, hopened, hlength⟩ := ht.bounded inner hinner
      refine ⟨inside ++ [(kind, pos)], opened?_entered hopened, ?_⟩
      rw [List.length_append]
      exact Nat.succ_le_succ hlength
  rw [emit_bind]
  cases result with
  | error fault =>
    rw [bind_error]
    refine ⟨nofun, hinside, fun n hn => ?_⟩
    obtain ⟨hlimit, inside, hopened, hlength⟩ := ht.deep n hn
    refine ⟨hlimit, inside ++ [(kind, pos)], opened?_entered hopened, ?_⟩
    rw [List.length_append, hlength]
    rfl
  | ok u =>
    have hwhole : Whole walk (⟨.enter, kind, pos⟩ :: (events ++ [⟨.exit, kind, pos⟩])) :=
      .node (walked events rfl) (ht.whole u rfl) .nil
    rw [bind_ok]
    refine ⟨fun _ _ => hwhole, fun front hfront => ?_, nofun⟩
    have hsplit : front <+: (⟨.enter, kind, pos⟩ :: events) ++ [⟨.exit, kind, pos⟩] := hfront
    rcases List.prefix_concat_iff.mp hsplit with rfl | hfront
    · exact ⟨[], hwhole.bracketed, Nat.zero_le _⟩
    · exact hinside front hfront

end Trace

namespace Walk

open Trace

variable {doc : Document} {plan : Plan}

/-- A walk with fewer levels that ends well is the walk with all of them. -/
theorem node_of_ok {depth : Nat} {events : List Event} (hle : depth ≤ doc.options.maxDepth)
    (h : node doc (.ofPlan plan) depth kind pos = ⟨events, .ok ()⟩) :
    node doc (.ofPlan plan) doc.options.maxDepth kind pos = ⟨events, .ok ()⟩ := by
  have hlevels : doc.Levels (· = .tooDeep doc.options.maxDepth) doc depth doc.options.maxDepth :=
    .inr ⟨hle, rfl⟩
  rcases node_cutFrom (.refl doc) hlevels kind (.refl pos) with heq | ⟨fault, _, hfault, _⟩
  · rw [← heq, h]
  · rw [h] at hfault
    cases hfault

theorem node_nests (hregistered : ∀ kind, plan.registered.contains kind = true)
    (hneeded : ∀ kind, plan.needed.contains kind = true) {depth : Nat}
    (hle : depth ≤ doc.options.maxDepth) (kind : NodeKind) (pos : Nat) :
    Nests (node doc (.ofPlan plan) doc.options.maxDepth) doc.options.maxDepth depth Unit
      (node doc (.ofPlan plan) depth kind pos) := by
  have hkept := Nests.kept (node doc (.ofPlan plan) doc.options.maxDepth) doc.options.maxDepth
  induction depth generalizing kind pos with
  | zero =>
    rw [node_zero (hneeded kind)]
    refine (hkept 0).bind ((hkept 0).read (doc.check_shallow _ _)) fun _ => ?_
    refine ⟨nofun, fun front hfront => ⟨[], ?_, Nat.le_refl 0⟩, fun n hn => ?_⟩
    · rw [List.prefix_nil.mp hfront]
      rfl
    · cases hn
      exact ⟨rfl, [], rfl, rfl⟩
  | succ depth ih =>
    have hnode := ih (by omega)
    have hchildren := (hkept depth).children doc plan ((hkept depth).viewVia doc plan hnode)
      (.node kind) pos
    have hsucc : node doc (.ofPlan plan) (depth + 1) kind pos = (do
        Trace.ofExcept (doc.check pos (ViewKind.node kind).size)
        Trace.emit ⟨.enter, kind, pos⟩
        children doc (.ofPlan plan) (viewVia doc (.ofPlan plan) (node doc (.ofPlan plan) depth))
          (.node kind) pos
        Trace.emit ⟨.exit, kind, pos⟩) := by
      rw [node_succ (hneeded kind)]
      simp only [announce, Guide.ofPlan, hregistered kind, if_true]
    rw [hsucc]
    cases hcheck : doc.check pos (ViewKind.node kind).size with
    | error fault => exact (hkept _).read (hcheck ▸ doc.check_shallow _ _)
    | ok u =>
      rw [hcheck] at hsucc
      refine hchildren.bracket fun inner hinner => node_of_ok hle ?_
      rw [hsucc, hinner]
      rfl

end Walk

theorem Document.walk_nests (doc : Document) {plan : Plan}
    (hregistered : ∀ kind, plan.registered.contains kind = true)
    (hneeded : ∀ kind, plan.needed.contains kind = true) (kind : ViewKind) (pos : Nat) :
    (doc.walk plan kind pos).Nests (Walk.node doc (.ofPlan plan) doc.options.maxDepth)
      doc.options.maxDepth doc.options.maxDepth Unit :=
  (Trace.Nests.kept _ _ _).viewVia doc plan
    (Walk.node_nests hregistered hneeded (Nat.le_refl _)) kind pos

/-! ## Runs -/

namespace Session

variable {doc : Document} {s t : Session}

/-- The events that a run has called for. -/
def Outcome.events {α : Type} (outcome : Outcome α) : List Event := outcome.calls.map Call.event

/-- The view of a node whose bytes lie in the buffer is to be had with the session's token. -/
theorem exec_viewAt (hs : s.Sound)
    (checked : s.document.check pos (ViewKind.node kind).size = .ok ()) :
    ∃ item t, s.exec (viewAt s.token (.node kind) pos) = (.ok (.object item), t) ∧ s.Reads t ∧
      t.heap.Live item ∧ item.place = .view (.node kind) pos := by
  obtain ⟨item, t, hopen⟩ := openNode_run hs ⟨.enter, kind, pos⟩ checked
  obtain ⟨hreads, hi, hplace⟩ := openNode_reads hs hopen
  refine ⟨item, t, ?_, hreads, hi, hplace⟩
  have hexec : s.exec (openPlace (.view (.node kind) pos)) = (.ok item, t) := by
    rw [openNode_eq] at hopen
    generalize s.exec (openPlace (.view (.node kind) pos)) = r at hopen
    obtain ⟨r, u⟩ := r
    cases r with
    | error f => cases hopen
    | ok other =>
      cases hopen
      rfl
  unfold viewAt
  rw [exec_bind_ok s (exec_get s), if_pos rfl, exec_bind_ok s hexec, exec_pure]

/-- The log of a run of a visitor over a document. -/
structure Outcome.WellNested {α : Type} (doc : Document) (visitor : Visitor)
    (outcome : Outcome α) : Prop where
  /-- Only the nesting of nodes is limited: the walk goes through a record by its children, however
  deep records nest, and still ends. -/
  records : ∀ kind pos, doc.walk visitor.plan (.record kind) pos = (do
    if ← (Walk.Guide.ofPlan visitor.plan).reaches (.record kind) then
      Trace.ofExcept (doc.check pos (ViewKind.record kind).size)
      Walk.children doc (.ofPlan visitor.plan) (doc.walk visitor.plan) (.record kind) pos)
  /-- It is the beginning of a bracketing. -/
  closable : ∃ rest, Bracketed (outcome.events ++ rest)
  /-- No more nodes are open at any time than the limit allows. -/
  bounded : ∀ front, front <+: outcome.events →
    ∃ inside, opened? [] front = some inside ∧ inside.length ≤ doc.options.maxDepth
  /-- If the run ends well, all nodes have been left. -/
  bracketed : outcome.fault = none → Bracketed outcome.events
  /-- If the run ends well, then whenever a node is entered, it is left later on, and what is called
  for from there to here is what the visitor calls for when it is run on the view of the node. -/
  segment : outcome.fault = none → ∀ {before rest : List Event} {kind : NodeKind} {pos : Nat},
    outcome.events = before ++ ⟨.enter, kind, pos⟩ :: rest →
      ∃ inner after, rest = inner ++ ⟨.exit, kind, pos⟩ :: after ∧ Bracketed inner ∧
        ∀ {t : Session}, Reachable doc t → ∀ {again : Visitor}, again.plan = visitor.plan →
          ∀ callback, ∃ item u,
            t.exec (viewAt t.token (.node kind) pos) = (.ok (.object item), u) ∧
              ((run again (carryOut callback) item).run u).1.events =
                ⟨.enter, kind, pos⟩ :: (inner ++ [⟨.exit, kind, pos⟩]) ∧
              ((run again (carryOut callback) item).run u).1.fault = none
  /-- If the run would nest past the limit, it names the limit, and as many nodes are open. -/
  deep : ∀ n, outcome.fault = some (.tooDeep n) → n = doc.options.maxDepth ∧
    ∃ inside, opened? [] outcome.events = some inside ∧ inside.length = doc.options.maxDepth

/-- A run calls for the events of its walk, whatever the callbacks do. -/
theorem run_events {every : List VisitorKey} (honce : ∀ key, every.count key = 1)
    {visitor : Visitor} (hplan : visitor.plan = .ofKeys every) (hs : s.Sound) (hdepth : s.depth = 0)
    {item : Link} (hi : s.heap.Live item) {view : ViewKind} (hplace : item.place = .view view pos)
    (callback : Event → Session → List Operation) :
    ((run visitor (carryOut callback) item).run s).1.events =
        (s.document.walk visitor.plan view pos).events ∧
      ((run visitor (carryOut callback) item).run s).1.fault =
        (s.document.walk visitor.plan view pos).fault? := by
  obtain ⟨_, hcalls, hfault⟩ := run_run (carryOut_answers s.document callback) hs hdepth hi hplace
    visitor
  refine ⟨?_, hfault⟩
  unfold Outcome.events
  rw [hcalls, hplan]
  exact Plan.calls_map_event honce (fun _ => ()) _

/-- Running a visitor on the view of a node, as it is to be had in any session: the walk of the node
alone has checked its bytes, so there is a view to run on. -/
theorem run_viewAt (ht : Reachable doc t) {every : List VisitorKey} {visitor : Visitor}
    (honce : ∀ key, every.count key = 1) (hplan : visitor.plan = .ofKeys every) {rest : List Event}
    (hwalk : doc.walk visitor.plan (.node kind) pos = ⟨⟨.enter, kind, pos⟩ :: rest, .ok ()⟩)
    (callback : Event → Session → List Operation) :
    ∃ item u, t.exec (viewAt t.token (.node kind) pos) = (.ok (.object item), u) ∧
      ((run visitor (carryOut callback) item).run u).1.events = ⟨.enter, kind, pos⟩ :: rest ∧
      ((run visitor (carryOut callback) item).run u).1.fault = none := by
  obtain ⟨rfl, hsound, hdepth⟩ := ht.sound
  have hnested := t.document.walk_nested visitor.plan (.node kind) pos
  rw [hwalk] at hnested
  cases hnested with
  | enter checked _ =>
    obtain ⟨item, u, hexec, hreads, hlive, hitem⟩ := exec_viewAt hsound checked
    obtain ⟨hevents, hfault⟩ := run_events honce hplan hreads.sound
      (hreads.grows.depth.trans hdepth) hlive hitem callback
    rw [hreads.grows.document, hwalk] at hevents hfault
    exact ⟨item, u, hexec, hevents, hfault⟩

/-- A run of a visitor with every kind is well nested, whatever its callbacks do. -/
theorem run_wellNested (hs : Reachable doc s) {item : Link} (hi : s.heap.Live item)
    {view : ViewKind} (hplace : item.place = .view view pos) {every : List VisitorKey}
    {full : Visitor} (honce : ∀ key, every.count key = 1) (hfull : full.plan = .ofKeys every)
    (callback : Event → Session → List Operation) :
    ((run full (carryOut callback) item).run s).1.WellNested doc full := by
  obtain ⟨rfl, hsound, hdepth⟩ := hs.sound
  obtain ⟨hevents, hfault⟩ := run_events honce hfull hsound hdepth hi hplace callback
  have hkinds : ∀ kind, full.plan.registered.contains kind = true ∧
      full.plan.needed.contains kind = true := by
    rw [hfull]
    exact Plan.every_kind honce
  have hnests := s.document.walk_nests (fun kind => (hkinds kind).1) (fun kind => (hkinds kind).2)
    view pos
  have hwhole : ((run full (carryOut callback) item).run s).1.fault = none →
      Whole (s.document.walk full.plan ∘ .node) (s.document.walk full.plan view pos).events := by
    intro hnone
    rw [hfault] at hnone
    obtain ⟨u, hresult⟩ := Trace.result_of_none hnone
    exact hnests.whole u hresult
  constructor
  · exact fun kind pos => Walk.viewVia_record kind pos
  · obtain ⟨inside, hopened, _⟩ := hnests.bounded _ (List.prefix_refl _)
    rw [hevents]
    exact exists_bracketed hopened
  · rw [hevents]
    exact hnests.bounded
  · intro hnone
    rw [hevents]
    exact (hwhole hnone).bracketed
  · intro hnone before rest kind pos hsplit
    rw [hevents] at hsplit
    obtain ⟨inner, after, hrest, hinner, hwalk⟩ := (hwhole hnone).segment hsplit
    refine ⟨inner, after, hrest, hinner, fun {t} ht {again} hagain callback => ?_⟩
    refine run_viewAt ht honce (hagain.trans hfull) ?_ callback
    rw [hagain]
    exact hwalk
  · intro n hn
    rw [hfault] at hn
    rw [hevents]
    exact hnests.deep n (Trace.result_of_some hn)

/-- A visitor with every kind, run from inside of a walk. The block encloses two statements and a
literal; if only two nodes may nest, the run ends inside of the block and the first statement. -/
theorem run_wellNested_block :
    (∀ literal limit,
      ((run fullVisitor (carryOut fun _ _ => [.release "a"]) blockNode).run
        (insideBlock literal limit)).1.WellNested (.block literal limit) fullVisitor) ∧
    ((run fullVisitor (carryOut fun _ _ => [.release "a"]) blockNode).run
      (insideBlock 88 256)).1.events =
        [⟨.enter, .blockStatement, 0⟩, ⟨.enter, .expressionStatement, 64⟩,
          ⟨.enter, .booleanLiteral, 88⟩, ⟨.exit, .booleanLiteral, 88⟩,
          ⟨.exit, .expressionStatement, 64⟩, ⟨.enter, .debuggerStatement, 104⟩,
          ⟨.exit, .debuggerStatement, 104⟩, ⟨.exit, .blockStatement, 0⟩] ∧
    ((run fullVisitor (carryOut fun _ _ => [.release "a"]) blockNode).run
      (insideBlock 88 2)).1.fault = some (.tooDeep 2) := by
  refine ⟨fun literal limit => ?_, by decide +kernel, by decide +kernel⟩
  exact run_wellNested (insideBlock_reachable literal limit) (blockNode_live literal limit) rfl
    VisitorKey.count_every fullVisitor_plan _

end Session

end FlatSyntax
