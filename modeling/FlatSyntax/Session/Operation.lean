import FlatSyntax.Session.Run

/-!
# Operations on a session

Everything that whoever holds a session can do with it, one operation at a time. What an operation
works on is named by a handle and a path from what the handle holds; what it gives can be kept under
a handle, and is otherwise let go when the operation is over. A callback of a visitor carries out
operations as well: which ones depends on the event and on the session as it is then. It can get hold
of the node it is called for with the session's token.

An operation that fails, or that finds nothing where its path leads, has an effect as well: what was
read before it failed stays in the slots of the objects that are held.
-/

namespace FlatSyntax

/-- A read of a sequence as a whole. -/
inductive Query where
  /-- The element at an index. -/
  | get (index : Nat)
  /-- The element at an index, counted from the end if it is negative. -/
  | at (index : Int)
  /-- The first element. -/
  | first
  /-- The last element. -/
  | last
  /-- Every element, whether or not others fail. -/
  | outcomes
  /-- All elements. -/
  | toList
  /-- What a function makes of each element. -/
  | map (f : Datum Link → Value)
  /-- The elements that pass a test. -/
  | filter (p : Datum Link → Bool)
  /-- The first element that passes a test. -/
  | find (p : Datum Link → Bool)
  /-- The index of the first element that passes a test. -/
  | position (p : Datum Link → Bool)
  /-- The elements combined from the left. -/
  | fold (f : Value → Datum Link → Value) (start : Value)
  /-- The elements in a range. -/
  | slice (start stop : Bound)
  /-- The elements from the back to the front. -/
  | reversed
  /-- The elements in order. -/
  | sorted (le : Datum Link → Datum Link → Bool)

/-- What an operation works on: the way from a handle. -/
structure Spot where
  /-- The handle to start from. -/
  handle : String := Session.rootHandle
  /-- The way from there. -/
  path : List Segment := []

/-- An operation on a session. -/
inductive Operation where
  /-- Reads the fields and elements on a way. -/
  | fetch (spot : Spot) (keep : Option String)
  /-- Lets go of what is held under a name. -/
  | release (name : String)
  /-- Asks for the view of a kind at an offset, with a token. -/
  | viewAt (token : UInt32) (kind : ViewKind) (pos : Nat) (keep : Option String)
  /-- Reads a layout at an offset. -/
  | decode (field : String) (layout : Layout) (pos : Nat) (keep : Option String)
  /-- Projects a view, a union or a sequence. -/
  | project (spot : Spot)
  /-- Reads the name and the source range in a name slot. -/
  | parts (spot : Spot)
  /-- Reads a sequence as a whole. -/
  | read (spot : Spot) (query : Query)
  /-- Reads two sequences one after the other; the token is that of the second one's session. -/
  | concat (spot : Spot) (token : UInt32) (other : Spot)
  /-- Changes the notes beside a sequence. -/
  | annotate (spot : Spot) (change : Notes → Except Fault Notes)
  /-- Runs a visitor on a view. -/
  | visit (visitor : Visitor) (spot : Spot) (callback : Event → Session → List Operation)

namespace Session

/-- Reads a sequence as a whole, for the sake of what its slots keep. -/
def query (item : Link) : Query → SessionM Unit
  | .get index => discard ((elements item).get? index)
  | .at index => discard ((elements item).at? index)
  | .first => discard (elements item).first?
  | .last => discard (elements item).last?
  | .outcomes => discard (outcomes item)
  | .toList => discard (elements item).toList
  | .map f => discard ((elements item).map f)
  | .filter p => discard ((elements item).filter p)
  | .find p => discard ((elements item).find? p)
  | .position p => discard ((elements item).position? p)
  | .fold f start => discard ((elements item).fold f start)
  | .slice start stop => discard ((elements item).slice start stop)
  | .reversed => discard (elements item).reversed
  | .sorted le => discard ((elements item).sorted le)

/-- Does something with what is at a spot, if there is anything. -/
def atSpot (spot : Spot) (act : Datum Link → SessionM Unit) : SessionM Unit := do
  match (← get).handle? spot.handle with
  | none => return ()
  | some held =>
    match ← follow held spot.path with
    | none => return ()
    | some d => act d

/-- Does something with the sequence at a spot, if there is one. -/
def atSequence (spot : Spot) (act : Link → SessionM Unit) : SessionM Unit :=
  atSpot spot fun d =>
    match d.sequence? with
    | some (_, item) => act item
    | none => return ()

/-- Holds a datum under a name, if one is given. -/
def keepAs (name : Option String) (d : Datum Link) : SessionM Unit :=
  match name with
  | some name => modify fun s => s.save name d
  | none => return ()

/-- Does something that may fail, and lets go of what nothing holds afterwards. -/
def settling (act : SessionM Unit) : StateM Session Unit := do
  let _ ← act.run
  modify collect

mutual

/-- Carries out an operation. -/
def perform : Operation → StateM Session Unit
  | .fetch spot keep => settling (atSpot spot (keepAs keep))
  | .release name => settling (modify fun s => s.release name)
  | .viewAt token kind pos keep => settling do keepAs keep (← viewAt token kind pos)
  | .decode field layout pos keep => settling do keepAs keep (← decode field layout pos)
  | .project spot =>
    settling <| atSpot spot fun d =>
      match d.layout? with
      | some layout => discard (project layout d)
      | none => return ()
  | .parts spot =>
    settling <| atSpot spot fun
      | .slot _ _ content => discard (slotParts content)
      | _ => return ()
  | .read spot q => settling (atSequence spot fun item => query item q)
  | .concat spot token other =>
    settling <| atSequence spot fun item =>
      atSequence other fun otherItem => discard (concat item token otherItem)
  | .annotate spot change => settling (atSequence spot fun item => annotate item change)
  | .visit visitor spot callback =>
    settling <| atSpot spot fun d =>
      match d.view? with
      | some (_, _, item) =>
        ExceptT.lift <| discard <|
          run visitor (fun event _ => do performAll (callback event (← get))) item
      | none => return ()

/-- Carries out operations, in order. -/
def performAll : List Operation → StateM Session Unit
  | [] => return ()
  | op :: rest => do
    perform op
    performAll rest

end

/-- The sessions that operations lead to from a session. Those that a callback finds, in the middle of
a run, are among them. -/
inductive Leads (start : Session) : Session → Prop where
  /-- No operation yet. -/
  | refl : Leads start start
  /-- One more operation. -/
  | step {s : Session} (h : Leads start s) (op : Operation) : Leads start ((perform op).run s).2
  /-- A run of a visitor begins: the view it is run on is found and held. -/
  | hold {s t : Session} (h : Leads start s) {spot : Spot} {held d : Datum Link}
      {kind : ViewKind} {pos : Nat} {item : Link} (handle : s.handle? spot.handle = some held)
      (found : (follow held spot.path).run.run s = (.ok (some d), t))
      (view : d.view? = some (kind, pos, item)) : Leads start ((pin item.mark).run t).2
  /-- A run enters a node: its view is opened and held. -/
  | enter {s t : Session} (h : Leads start s) {event : Event} {item : Link}
      (opened : (openNode event).run s = (some item, t)) : Leads start ((pin item.mark).run t).2
  /-- A run leaves a node, or is over: what was held last is let go. -/
  | leave {s : Session} (h : Leads start s) : Leads start (unpin.run s).2

/-- The sessions of a document: one is opened, bare or with the root record in hand, and operations
lead on from there. -/
inductive Reachable (document : Document) : Session → Prop where
  /-- Opened bare. -/
  | bare (token : UInt32) {s : Session} (h : Leads (.start document token) s) :
      Reachable document s
  /-- Opened with the root record. -/
  | root {token : UInt32} {pos : Nat} {r s : Session} (opened : ofRoot document token pos = .ok r)
      (h : Leads r s) : Reachable document s

end Session

end FlatSyntax
