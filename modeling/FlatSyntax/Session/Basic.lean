import FlatSyntax.Document.Path
import FlatSyntax.Session.Heap

/-!
# Sessions

A session reads a document lazily. A view or sequence becomes an object when it is first asked for,
and whoever asks for the same place while the object is live gets the same object. What has been
read of an object stays in its slots; a read that failed leaves nothing behind.

Objects are held by named handles, by the slots of live objects, and while a walk runs by the nodes
it is inside of. An object that nothing holds is let go.
-/

namespace FlatSyntax

/-- A session: a document and what has been read of it. -/
structure Session where
  /-- What is read. -/
  document : Document
  /-- The token that tells the session apart from others. -/
  token : UInt32
  /-- The objects built so far. -/
  heap : Heap := .empty
  /-- What is held under a name. -/
  handles : List (String × Datum Link) := []
  /-- The objects held by walks that are running. -/
  pins : List Nat := []
  /-- How many views the projection that is running is inside of. -/
  depth : Nat := 0

/-- An operation on a session, which may fail. The changes made before a failure stay. -/
abbrev SessionM := ExceptT Fault (StateM Session)

namespace Session

/-- A session in which nothing has been read. -/
def start (document : Document) (token : UInt32) : Session := { document, token }

/-- The outcome of a read of the document. -/
def ofExcept {α : Type} (result : Except Fault α) : SessionM α := MonadExcept.ofExcept result

/-- The object at a place: the live one, or else a new one if its bytes lie in the buffer. -/
def openPlace (place : Place) : SessionM Link := do
  let s ← get
  match s.heap.find? place with
  | some serial =>
    let extent := ((s.heap.get? serial).map Object.extent).getD ⟨place.pos, 0⟩
    return ⟨place, extent, serial⟩
  | none =>
    let extent ← ofExcept (s.document.extent place)
    let (serial, heap) := s.heap.add (.fresh place extent)
    set { s with heap }
    return ⟨place, extent, serial⟩

/-- Reads a layout at an offset. -/
def decode (field : String) (layout : Layout) (pos : Nat) : SessionM (Datum Link) := do
  let d ← ofExcept ((← get).document.locate field layout pos)
  d.traverse openPlace

/-- Reads a slot of an object, or gives what the slot has kept. -/
def slot (item : Link) (index : Nat) : SessionM (Datum Link) := do
  let s ← get
  match s.heap.slot? item.mark index with
  | some d => return d
  | none =>
    match s.document.slot? item index with
    | none => return .absent
    | some r =>
      let d ← decode r.field r.layout r.pos
      if r.memoized then
        modify fun s => { s with heap := s.heap.fill item.mark index d }
      return d

/-- Projects a view one level deeper, unless that is past the limit. However the projection ends,
the session is at the level it was at before. -/
def nested (below : SessionM Value) : SessionM Value := do
  let s ← get
  let limit := s.document.options.maxDepth
  if limit < s.depth + 1 then throw (.tooDeep limit)
  else
    set { s with depth := s.depth + 1 }
    let result ← ExceptT.lift below.run
    modify fun s => { s with depth := s.depth - 1 }
    ofExcept result

/-- Reads slots through the objects of the session. -/
def access : Access SessionM Nat := ⟨slot, nested⟩

/-- The view of a kind at an offset, for the holder of the session's token. -/
def viewAt (token : UInt32) (kind : ViewKind) (pos : Nat) : SessionM (Datum Link) := do
  if (← get).token = token then return .object (← openPlace (.view kind pos))
  else throw .foreignSession

/-- The plain value of what reading a layout gave. -/
def project (layout : Layout) (d : Datum Link) : SessionM Value := do
  Projection.project (← get).document access layout d

/-- The name and the source range in a name slot. -/
def slotParts (content : SlotContent Link) : SessionM (Option Text × Option Span) :=
  Projection.slotParts access content

/-- Follows a path; `none` if it leads nowhere. The slots on the way keep what was read. -/
def follow (d : Datum Link) (path : List Segment) : SessionM (Option (Datum Link)) := do
  Path.follow (← get).document access d path

/-- The source text of the node at an offset. -/
def sourceText (pos : Nat) : SessionM Text := do ofExcept ((← get).document.nodeText pos)

/-- The elements of a sequence. -/
def elements (item : Link) : Elements SessionM (Datum Link) := access.elements item

/-- What each element of a sequence gives; an element that fails does not stop the others. -/
def outcomes (item : Link) : SessionM (List (Except Fault (Datum Link))) :=
  (List.range item.extent.count).mapM fun index => ExceptT.lift (slot item index).run

/-- The elements of a sequence followed by those of another of the session with the given token. -/
def concat (item : Link) (token : UInt32) (other : Link) : SessionM (List (Datum Link)) := do
  if (← get).token = token then (elements item).concat (elements other)
  else throw .foreignSession

/-- The notes beside a sequence. -/
def notes (s : Session) (item : Link) : Notes := ((s.heap.get? item.mark).map Object.notes).getD []

/-- Replaces the notes beside a sequence, unless the change is refused. -/
def annotate (item : Link) (change : Notes → Except Fault Notes) : SessionM Unit := do
  let changed ← ofExcept (change ((← get).notes item))
  modify fun s => { s with heap := s.heap.modify item.mark fun o => { o with notes := changed } }

/-- Makes a change of a sequence that is asked for, unless it is refused. -/
def edit (item : Link) (e : Edit) : SessionM Unit :=
  annotate item fun notes => notes.edit item.extent.count e

/-! ## Handles -/

/-- What is held under a name. -/
def handle? (s : Session) (name : String) : Option (Datum Link) := s.handles.lookup name

/-- The handles without the one of the given name. -/
def without (s : Session) (name : String) : List (String × Datum Link) :=
  s.handles.filter fun entry => entry.1 != name

/-- Holds a datum under a name, in place of what was held under it. -/
def save (s : Session) (name : String) (d : Datum Link) : Session :=
  { s with handles := (name, d) :: s.without name }

/-- Stops holding what is held under a name. -/
def release (s : Session) (name : String) : Session := { s with handles := s.without name }

/-- The objects held by handles and by running walks. -/
def roots (s : Session) : List Nat :=
  s.handles.filterMap (fun entry => entry.2.object?.map Item.mark) ++ s.pins

/-- Lets go of the objects that nothing holds, and of what only they held. -/
def collect (s : Session) : Session := { s with heap := s.heap.collect s.roots }

/-! ## Opening -/

/-- The name of the handle that holds the root record. -/
def rootHandle : String := "root"

/-- Opens the root record of a document at an offset and holds it. -/
def ofRoot (document : Document) (token : UInt32) (root : Nat) : Except Fault Session :=
  let (result, s) := (decode "root" (.record .root) root).run.run (start document token)
  result.map fun d => s.save rootHandle d

/-- Opens the root record that the trailer of the buffer names. -/
def ofTrailer (document : Document) (token : UInt32) : Except Fault Session := do
  ofRoot document token (← document.trailerRoot)

/-- The offset of the root record that the session holds. -/
def rootPos? (s : Session) : Option Nat :=
  (s.handle? rootHandle).bind fun d => d.object?.map fun item => item.place.pos

end Session

end FlatSyntax
