import FlatSyntax.Session.Basic
import FlatSyntax.Visitor.Walker

/-!
# Running a visitor on a session

A walk reads the buffer only, so what it visits does not depend on the session. Running a visitor is
replaying the events of the walk: entering a node opens its view and holds it, the callbacks for the
event are called in the order of their keys, and leaving the node lets go of the view. If the walk
ends in a fault, the views of the nodes it is still inside of are let go without further callbacks.
-/

namespace FlatSyntax

/-- One call of a callback. -/
structure Call (α : Type) where
  /-- The position of the key it is registered under. -/
  key : Nat
  /-- The node event it is called for. -/
  event : Event
  /-- What it made of the node. -/
  seen : α

namespace Session

variable {α : Type}

/-- Holds an object for a walk. -/
def pin (serial : Nat) : StateM Session Unit := modify fun s => { s with pins := serial :: s.pins }

/-- Stops holding the object that a walk held last. -/
def unpin : StateM Session Unit := modify fun s => { s with pins := s.pins.drop 1 }.collect

/-- Calls the callbacks for an event on the view of its node. -/
def callAll (plan : Plan) (callback : Event → Link → StateM Session α) (event : Event)
    (item : Link) : StateM Session (List (Call α)) :=
  (plan.callbacks event.phase event.kind).mapM fun key => do
    return ⟨key, event, ← callback event item⟩

/-- Opens the view of a node. A walk has checked its bytes, so this does not fail; `none` says that
it did. -/
def openNode (event : Event) : StateM Session (Option Link) := do
  match ← (openPlace (.view (.node event.kind) event.pos)).run with
  | .ok item => return some item
  | .error _ => return none

/-- Replays events: `inside` are the views of the nodes that the walk is inside of, innermost
first. -/
def replay (plan : Plan) (callback : Event → Link → StateM Session α) :
    List Link → List Event → StateM Session (List (Call α))
  | inside, [] => do
    inside.forM fun _ => unpin
    return []
  | inside, event :: rest =>
    match event.phase, inside with
    | .enter, _ => do
      match ← openNode event with
      | some item =>
        pin item.mark
        let calls ← callAll plan callback event item
        return calls ++ (← replay plan callback (item :: inside) rest)
      | none => replay plan callback inside rest
    | .exit, item :: outer => do
      let calls ← callAll plan callback event item
      unpin
      return calls ++ (← replay plan callback outer rest)
    | .exit, [] => replay plan callback [] rest

/-- What a run of a visitor gives. -/
structure Outcome (α : Type) where
  /-- The calls made, in order. -/
  calls : List (Call α)
  /-- The fault that ended the walk, if any. -/
  fault : Option Fault
  /-- The visitor after the walk. -/
  visitor : Visitor

/-- Runs a visitor on a view, which is held until the run is over. -/
def run (visitor : Visitor) (callback : Event → Link → StateM Session α) (item : Link) :
    StateM Session (Outcome α) := do
  match item.place with
  | .view kind pos =>
    let (trace, visitor) := visitor.walk (← get).document kind pos
    pin item.mark
    let calls ← replay visitor.plan callback [] trace.events
    unpin
    return ⟨calls, trace.fault?, visitor⟩
  | .sequence _ _ => return ⟨[], none, visitor⟩

end Session

end FlatSyntax
