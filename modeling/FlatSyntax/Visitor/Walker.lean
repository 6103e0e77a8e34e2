import FlatSyntax.Visitor.Basic
import FlatSyntax.Visitor.Trace

/-!
# Walks of a visitor

A walk as a visitor makes it: what the visitor finds out about layouts on the way it knows
afterwards, also if the walk ends in a fault.
-/

namespace FlatSyntax

/-- What a walk carries along: the visitor, and the events recorded so far. -/
structure Walker where
  /-- The visitor. -/
  visitor : Visitor
  /-- The events, in order. -/
  events : Array Event := #[]

/-- A part of a walk. What was recorded and learned before a fault stays. -/
abbrev WalkM := ExceptT Fault (StateM Walker)

namespace Walker

/-- Asks the visitor about a layout. -/
def reaches (layout : Layout) : WalkM Bool := do
  let w ← get
  let (answer, visitor) := w.visitor.reaches layout
  set { w with visitor }
  return answer

/-- Records an event. -/
def emit (event : Event) : WalkM Unit := modify fun w => { w with events := w.events.push event }

/-- A guide that asks the visitor, which asks its plan once for each layout. -/
def guide (plan : Plan) : Walk.Guide WalkM where
  plan := plan
  reaches := reaches
  read := MonadExcept.ofExcept
  emit := emit

end Walker

/-- Walks the nodes of a view: the walk, and the visitor after it. -/
def Visitor.walk (v : Visitor) (doc : Document) (kind : ViewKind) (pos : Nat) :
    Trace Unit × Visitor :=
  let (result, w) := (Walk.view doc (Walker.guide v.plan) kind pos).run.run { visitor := v }
  (⟨w.events.toList, result⟩, w.visitor)

end FlatSyntax
