import FlatSyntax.Session.Operation
import FlatSyntax.Workspace.Basic

/-!
# Clients of a workspace

A client opens sessions and compiles visitors, and then turns to this session or that one as it
likes. It can use any visitor on any session, and what it got from one session it can bring to
another: a token, or a sequence.

The callbacks of a visitor may turn to other sessions in the middle of a run. So the run of a visitor
is not one action: the walk over the document is, and each step of replaying its events is.
-/

namespace FlatSyntax

/-- What can be done with one session between two actions on others. -/
inductive Session.Move where
  /-- An operation. -/
  | perform (op : Operation)
  /-- The run of a visitor begins: the view at a spot is held. -/
  | hold (spot : Spot)
  /-- The run enters a node: its view is opened and held. -/
  | enter (event : Event)
  /-- The run leaves a node or is over: what was held last is let go. -/
  | leave

/-- Makes a move. -/
def Session.Move.run : Move → StateM Session Unit
  | .perform op => Session.perform op
  | .hold spot => do
    match (← get).handle? spot.handle with
    | none => return ()
    | some held =>
      match ← (follow held spot.path).run with
      | .ok (some d) =>
        match d.view? with
        | some (_, _, item) => pin item.mark
        | none => return ()
      | _ => return ()
  | .enter event => do
    match ← openNode event with
    | some item => pin item.mark
    | none => return ()
  | .leave => unpin

/-- What a client has. -/
structure Client where
  /-- Its sessions. -/
  workspace : Workspace := .empty
  /-- Its visitors. -/
  visitors : List Visitor := []

/-- Something that a client does. -/
inductive Action where
  /-- Opens a session. -/
  | start (document : Document) (opening : Opening)
  /-- Compiles a visitor. -/
  | compile (keys : List String)
  /-- Makes a move in a session. -/
  | move (session : Nat) (move : Session.Move)
  /-- Asks a session for a view with the token of a session. -/
  | viewAt (session owner : Nat) (kind : ViewKind) (pos : Nat) (keep : Option String)
  /-- Reads a sequence that a session holds and one that a session holds, as one. -/
  | concat (session : Nat) (handle : String) (owner : Nat) (other : String)
  /-- Walks a visitor over the document of a session. -/
  | walk (visitor session : Nat) (kind : ViewKind) (pos : Nat)

namespace Workspace

/-- The elements of a sequence held in one session followed by those of a sequence held in one. -/
def concatHeld (index : Nat) (handle : String) (owner : Nat) (other : String) :
    WorkspaceM (List (Datum Link)) := do
  let (element, item) ← sequence { session := index, handle }
  concat index element item (some { session := owner, handle := other })

end Workspace

namespace Client

/-- What the client has after an action, before anything is let go. -/
def act (c : Client) : Action → Client
  | .start document opening => { c with workspace := (c.workspace.openDocument document opening).2 }
  | .compile keys =>
    match Visitor.compile keys with
    | .ok visitor => { c with visitors := c.visitors ++ [visitor] }
    | .error _ => c
  | .move session move =>
    { c with workspace := ((Workspace.withSession session move.run).run.run c.workspace).2 }
  | .viewAt session owner kind pos keep =>
    { c with
      workspace := ((Workspace.viewAt session owner kind pos keep).run.run c.workspace).2 }
  | .concat session handle owner other =>
    { c with
      workspace := ((Workspace.concatHeld session handle owner other).run.run c.workspace).2 }
  | .walk visitor session kind pos =>
    match c.workspace.session? session with
    | some s =>
      { c with
        visitors := c.visitors.modify visitor fun v => (v.walk s.document kind pos).2 }
    | none => c

/-- What the client has after an action. -/
def step (c : Client) (a : Action) : Client :=
  { c.act a with workspace := (c.act a).workspace.settle }

/-- What a client has after actions, in order. -/
def run (actions : List Action) : Client := actions.foldl step {}

end Client

end FlatSyntax
