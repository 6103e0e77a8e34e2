import FlatSyntax.Session.Run
import FlatSyntax.Visitor.PlainWalk
import FlatSyntax.Workspace.Basic

/-!
# Visiting several targets

One visitor can be run on views of a workspace, on their plain values and on plain values given
directly, one after the other. A target that cannot be found or projected refuses the whole visit; a
walk that fails ends only its own run.
-/

namespace FlatSyntax

/-- What callbacks look at. -/
inductive Detail where
  /-- The offset of the node. -/
  | offset
  /-- The source range of the node. -/
  | span
  /-- The source text of the node. -/
  | text
  /-- The plain value of the node. -/
  | plain
  deriving DecidableEq, Repr

/-- What a callback saw. -/
inductive Sight where
  /-- The offset. -/
  | offset (pos : Nat)
  /-- The source range, or why there is none. -/
  | span (s : Except Fault Span)
  /-- The source text, or why there is none. -/
  | text (t : Except Fault Text)
  /-- The plain value, or why there is none. -/
  | plain (v : Except Fault Value)

/-- What a visitor is run on. -/
inductive Target where
  /-- A plain value. -/
  | value (v : Value)
  /-- The view at a location. -/
  | view (l : Location)
  /-- The plain value of what is at a location. -/
  | projected (l : Location)

/-- What a run of a visitor did. -/
inductive Run where
  /-- The calls on views, and the fault that ended the walk, if any. -/
  | views (calls : List (Call Sight)) (fault : Option Fault)
  /-- The calls on the node objects of a plain value. -/
  | values (log : List (Nat × PlainEvent))

namespace Detail

/-- A callback that looks at a detail. -/
def look (detail : Detail) (event : Event) (item : Link) : StateM Session Sight :=
  match detail with
  | .offset => return .offset event.pos
  | .span => return .span ((← get).document.span event.pos)
  | .text => return .text (← (Session.sourceText event.pos).run)
  | .plain => return .plain (← (Session.project item.place.layout (.object item)).run)

end Detail

namespace Workspace

/-- Runs a visitor on a target: the run, and the visitor after it. -/
def visit (visitor : Visitor) (detail : Detail) : Target → WorkspaceM (Run × Visitor)
  | .value v => return (.values (visitor.plan.plainLog v), visitor)
  | .view l => do
    let (_, _, item) ← orBadPath (← resolve l).view?
    let outcome ← withSession l.session (Session.run visitor detail.look item)
    return (.views outcome.calls outcome.fault, outcome.visitor)
  | .projected l => do
    let (layout, d) ← projectable l
    let _ ← orBadPath d.view?
    let projected ← within l.session (Session.project layout d)
    return (.values (visitor.plan.plainLog projected), visitor)

/-- Runs one visitor on targets, in order. -/
def visitEach (detail : Detail) : Visitor → List Target → WorkspaceM (List Run)
  | _, [] => return []
  | visitor, target :: rest => do
    let (run, visitor) ← visit visitor detail target
    return run :: (← visitEach detail visitor rest)

/-- Reads the keys of a visitor and runs it on targets, in order. -/
def visitAll (keys : List String) (detail : Detail) (targets : List Target) :
    WorkspaceM (List Run) := do
  match Visitor.compile keys with
  | .error f => throw (.fault f)
  | .ok visitor => visitEach detail visitor targets

end Workspace

end FlatSyntax
