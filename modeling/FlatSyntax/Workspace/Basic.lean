import FlatSyntax.Document.Describe
import FlatSyntax.Session.Basic

/-!
# Workspaces

A workspace holds several sessions, and gives a token to each that is started. A session that is
started may still fail to open, and its token is then spent. A location names something in a workspace:
a session, a handle of the session, and a path from what the handle holds. Operations on locations
are refused when the location leads nowhere or holds something of another kind; a fault on the way
is a refusal as well.

What an operation read and did not save is no longer held when it is over: `settle` lets go of it.
-/

namespace FlatSyntax

/-- Several sessions; the entry of one that failed to open is empty. -/
structure Workspace where
  /-- The sessions, in the order they were opened. -/
  sessions : Array (Option Session)
  /-- The number of sessions that were started, also of those that failed to open. -/
  started : Nat

/-- How a session is opened. -/
inductive Opening where
  /-- With the root record at an offset. -/
  | root (pos : Nat)
  /-- With the root record that the trailer of the buffer names. -/
  | trailer
  /-- Without a root record. -/
  | bare
  deriving DecidableEq, Repr

/-- Whether a session is started. A trailer that cannot be read is found out before; a root record
that cannot be read is found out in the session. -/
def Opening.starts (document : Document) : Opening → Bool
  | .trailer => document.trailerRoot.isOk
  | .root _ | .bare => true

/-- Where to look for something. -/
structure Location where
  /-- Which session. -/
  session : Nat := 0
  /-- The handle to start from. -/
  handle : String := Session.rootHandle
  /-- The way from there. -/
  path : List Segment := []

/-- Why an operation was refused. -/
inductive Refusal where
  /-- There is no such session. -/
  | noSession
  /-- The session has no such handle. -/
  | noHandle
  /-- The path leads nowhere, or what is there does not have the operation. -/
  | badPath
  /-- The two sequences have elements of different types. -/
  | typeMismatch
  /-- Reading failed. -/
  | fault (f : Fault)
  deriving DecidableEq, Repr

/-- An operation on a workspace, which may be refused. The changes made before a refusal stay. -/
abbrev WorkspaceM := ExceptT Refusal (StateM Workspace)

namespace Workspace

/-- A workspace without sessions. -/
def empty : Workspace := ⟨#[], 0⟩

/-- The token of the session that is started next: sessions are numbered from 1, with 32 bits. -/
def nextToken (w : Workspace) : UInt32 := UInt32.ofNat (w.started + 1)

/-- Opens a session on a document and adds it; if it fails to open, its entry is empty. The token of
a session that is started is taken either way. -/
def openDocument (w : Workspace) (document : Document) (opening : Opening) :
    Except Fault (Option Nat) × Workspace :=
  let opened : Except Fault Session :=
    match opening with
    | .root pos => Session.ofRoot document w.nextToken pos
    | .trailer => Session.ofTrailer document w.nextToken
    | .bare => .ok (Session.start document w.nextToken)
  (opened.map Session.rootPos?,
    ⟨w.sessions.push opened.toOption, w.started + (opening.starts document).toNat⟩)

/-- The session with a number. -/
def session? (w : Workspace) (index : Nat) : Option Session := w.sessions[index]?.join

/-- Lets go of everything that nothing holds between two operations. -/
def settle (w : Workspace) : Workspace :=
  { w with sessions := w.sessions.map (Option.map Session.collect) }

/-- A session, if it exists. -/
def session (index : Nat) : WorkspaceM Session := do
  match (← get).session? index with
  | some s => return s
  | none => throw .noSession

/-- Runs an operation of a session. -/
def withSession {α : Type} (index : Nat) (act : StateM Session α) : WorkspaceM α := do
  let (result, s) := act.run (← session index)
  modify fun w => { w with sessions := w.sessions.setIfInBounds index (some s) }
  return result

/-- Runs an operation of a session that may fail. -/
def within {α : Type} (index : Nat) (act : SessionM α) : WorkspaceM α := do
  match ← withSession index act.run with
  | .ok result => return result
  | .error f => throw (.fault f)

/-- What is there, or the refusal of a path that leads nowhere. -/
def orBadPath {α : Type} : Option α → WorkspaceM α
  | some a => return a
  | none => throw .badPath

/-- What is at a location. -/
def resolve (l : Location) : WorkspaceM (Datum Link) := do
  match (← session l.session).handle? l.handle with
  | none => throw .noHandle
  | some d => orBadPath (← within l.session (Session.follow d l.path))

/-- Holds a datum under a name. -/
def save (index : Nat) (name : Option String) (d : Datum Link) : WorkspaceM Unit :=
  match name with
  | some name => withSession index (modify fun s => s.save name d)
  | none => return ()

/-- What is at a location, held under a name if one is given. What a handle holds already is not
held under a second name. -/
def fetch (l : Location) (name : Option String) : WorkspaceM (Datum Link) := do
  let d ← resolve l
  if !l.path.isEmpty then save l.session name d
  return d

/-- Stops holding what is held under a name, and tells whether anything was. -/
def release (index : Nat) (name : String) : WorkspaceM Bool := do
  let held := ((← session index).handle? name).isSome
  withSession index (modify fun s => s.release name)
  return held

/-- The view, union or sequence at a location, with the layout to project it with. -/
def projectable (l : Location) : WorkspaceM (Layout × Datum Link) := do
  let d ← resolve l
  return (← orBadPath d.layout?, d)

/-- The plain value of the view, union or sequence at a location. -/
def project (l : Location) : WorkspaceM Value := do
  let (layout, d) ← projectable l
  within l.session (Session.project layout d)

/-- The kind and the offset of the node at a location. -/
def node (l : Location) : WorkspaceM (NodeKind × Nat) := do
  match (← resolve l).view? with
  | some (.node kind, pos, _) => return (kind, pos)
  | _ => throw .badPath

/-- The view of a kind at an offset of a session, asked for with the token of another session. -/
def viewAt (index owner : Nat) (kind : ViewKind) (pos : Nat) (name : Option String) :
    WorkspaceM (Datum Link) := do
  let _ ← session index
  let token := (← session owner).token
  let d ← within index (Session.viewAt token kind pos)
  save index name d
  return d

/-- The name that a fault in a layout read on its own is blamed on. -/
def probe : String := "probe"

/-- What a layout at an offset holds. -/
def decode (index : Nat) (layout : Layout) (pos : Nat) (name : Option String) :
    WorkspaceM (Datum Link) := do
  let d ← within index (Session.decode probe layout pos)
  save index name d
  return d

/-- What a datum is compared by: views by their kind of view, and sequences by their elements. -/
inductive Identity where
  /-- A node, directly or in a union. -/
  | node (serial : Nat) (inUnion : Bool)
  /-- A record. -/
  | record (serial : Nat)
  /-- A sequence. -/
  | sequence (serial : Nat)

/-- What a datum is compared by, if it can be compared. -/
def identity? : Datum Link → Option Identity
  | .object item =>
    match item.place with
    | .view (.node _) _ => some (.node item.mark false)
    | .view (.record _) _ => some (.record item.mark)
    | .sequence _ _ => some (.sequence item.mark)
  | .variant _ _ item => some (.node item.mark true)
  | _ => none

/-- Whether two serial numbers of the same session are equal, if the two can be compared. A node is
never a record, but a union can only be compared with nodes, and a sequence only with sequences. -/
def Identity.same? : Identity → Identity → Option Bool
  | .node a _, .node b _ => some (a == b)
  | .record a, .record b => some (a == b)
  | .sequence a, .sequence b => some (a == b)
  | .node _ false, .record _ | .record _, .node _ false => some false
  | _, _ => none

/-- Whether the same object is at two locations. -/
def same (a b : Location) : WorkspaceM Bool := do
  let first ← resolve a
  let second ← resolve b
  let x ← orBadPath (identity? first)
  let y ← orBadPath (identity? second)
  return (← orBadPath (x.same? y)) && a.session == b.session

/-- The sequence at a location, with the layout of its elements. -/
def sequence (l : Location) : WorkspaceM (Layout × Link) := do
  orBadPath (← resolve l).sequence?

/-- The elements of a sequence followed by those of the sequence at another location. The other one
has to be there and to have elements of the same type. -/
def concat (index : Nat) (element : Layout) (item : Link) (other : Option Location) :
    WorkspaceM (List (Datum Link)) := do
  match other with
  | none => throw .typeMismatch
  | some l =>
    match (← resolve l).sequence? with
    | none => throw .typeMismatch
    | some (otherElement, otherItem) =>
      if element = otherElement then
        within index (Session.concat item (← session l.session).token otherItem)
      else throw .typeMismatch

end Workspace

end FlatSyntax
