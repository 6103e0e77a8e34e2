import FlatSyntax.Document.Text
import FlatSyntax.RegExpFlags
import FlatSyntax.Schema.Catalogue

/-!
# Reading a layout

Reading a layout at an offset gives a datum. Views and sequences are not read any further: the datum
names the place they are at, and opening the place checks that its bytes are in the buffer and tells
where its slots are. So reading is two steps, `locate`, which follows tags and pointers, and opening
the at most one place that was found.
-/

namespace FlatSyntax

/-- A view or a sequence, by what it is and where it is. -/
inductive Place where
  /-- A view at an offset. -/
  | view (kind : ViewKind) (pos : Nat)
  /-- A sequence with its header at an offset. -/
  | sequence (element : Layout) (pos : Nat)
  deriving DecidableEq, Repr

/-- The offset of a place. -/
def Place.pos : Place → Nat
  | .view _ pos => pos
  | .sequence _ pos => pos

/-- Where the slots of a place are: the fields of a view, the elements of a sequence. -/
structure Extent where
  /-- The offset that slots are counted from. -/
  base : Nat
  /-- The number of slots. -/
  count : Nat
  deriving DecidableEq, Repr

/-- A place that has been opened, with a mark `τ` that tells apart the objects opened there. -/
structure Item (τ : Type) where
  /-- What is there. -/
  place : Place
  /-- Where its slots are. -/
  extent : Extent
  /-- Which object it is. -/
  mark : τ
  deriving DecidableEq, Repr

/-- What a name slot holds, with `ω` for the name. -/
inductive SlotContent (ω : Type) where
  /-- Nothing. -/
  | nothing
  /-- A source range. -/
  | range (span : Span)
  /-- A name with its source range. -/
  | name (o : ω)
  deriving DecidableEq, Repr

/-- What reading a layout gives, with `ω` for views and sequences. -/
inductive Datum (ω : Type) where
  /-- An optional value that is absent. -/
  | absent
  /-- A byte. -/
  | byte (b : UInt8)
  /-- A number of 32 bits. -/
  | word (n : Nat)
  /-- A double-precision number. -/
  | double (x : Double)
  /-- A truth value. -/
  | flag (b : Bool)
  /-- A source range. -/
  | span (s : Span)
  /-- The flags of a regular expression. -/
  | regExpFlags (flags : RegExpFlags)
  /-- A string. -/
  | text (t : Text)
  /-- The kind of a node. -/
  | kind (k : NodeKind)
  /-- A member of a choice. -/
  | choice (kind : ChoiceKind) (member : Member)
  /-- A view or a sequence. -/
  | object (o : ω)
  /-- The node selected by the tag of a union. -/
  | variant (kind : UnionKind) (v : Variant) (o : ω)
  /-- The case selected by the tag of a name slot. -/
  | slot (kind : SlotKind) (c : SlotCase) (content : SlotContent ω)
  deriving DecidableEq, Repr

namespace Datum

variable {ω ω' : Type}

/-- The view or sequence in a datum. -/
def object? : Datum ω → Option ω
  | .object o | .variant _ _ o | .slot _ _ (.name o) => some o
  | _ => none

/-- Replaces the view or sequence in a datum by what `f` makes of it. -/
def traverse {m : Type → Type} [Monad m] (f : ω → m ω') : Datum ω → m (Datum ω')
  | .absent => pure .absent
  | .byte b => pure (.byte b)
  | .word n => pure (.word n)
  | .double x => pure (.double x)
  | .flag b => pure (.flag b)
  | .span s => pure (.span s)
  | .regExpFlags flags => pure (.regExpFlags flags)
  | .text t => pure (.text t)
  | .kind k => pure (.kind k)
  | .choice k member => pure (.choice k member)
  | .object o => .object <$> f o
  | .variant k v o => .variant k v <$> f o
  | .slot k c .nothing => pure (.slot k c .nothing)
  | .slot k c (.range s) => pure (.slot k c (.range s))
  | .slot k c (.name o) => (fun o' => .slot k c (.name o')) <$> f o

end Datum

namespace Document

/-- Whether the value at `pos` is absent. `field` is the field that a value without an encoding for
absence is blamed on. -/
def isAbsent (doc : Document) (field : String) (layout : Layout) (pos : Nat) : Except Fault Bool :=
  match layout.absence with
  | .nullPointer distance => do return (← doc.long (doc.offset pos distance)) == 0
  | .reservedTag distance tag => do return (← doc.byte (doc.offset pos distance)) == tag
  | .emptyText => do
    if (← doc.long pos) = 0 then return (← doc.word (doc.offset pos 8)) == 0 else return false
  | .unsupported => .error (.noAbsence field layout.name)

/-- The offset of the node that a variant's payload at `pos` holds or points to. -/
def target (doc : Document) (v : Variant) (pos : Nat) : Except Fault Nat :=
  if v.inline then .ok pos else doc.word pos

/-- Reads a layout up to the views and sequences in it. -/
def locate (doc : Document) (field : String) : Layout → Nat → Except Fault (Datum Place)
  | .byte, pos => .byte <$> doc.byte pos
  | .word, pos => .word <$> doc.word pos
  | .double, pos => .double <$> doc.double pos
  | .flag, pos => .flag <$> doc.flag pos
  | .span, pos => .span <$> doc.span pos
  | .regExpFlags, pos => (fun bits => .regExpFlags ⟨bits⟩) <$> doc.byte pos
  | .text, pos => .text <$> doc.text pos
  | .choice kind, pos => do
    let tag ← doc.byte pos
    match kind.member? tag with
    | some member => return .choice kind member
    | none => .error (.unexpectedTag kind.name tag)
  | .view kind, pos => .ok (.object (.view kind pos))
  | .union kind, pos => do
    let tag ← doc.byte pos
    match kind.variant? tag with
    | some v => return .variant kind v (.view (.node v.node) (← doc.target v (doc.offset pos 8)))
    | none => .error (.unexpectedTag kind.name tag)
  | .slot kind, pos => do
    let tag ← doc.byte pos
    match kind.case? tag with
    | some c =>
      match c.payload with
      | .nothing => return .slot kind c .nothing
      | .range => return .slot kind c (.range (← doc.span (doc.offset pos 8)))
      | .name => return .slot kind c (.name (.view (.record .nameSpan) (doc.offset pos 8)))
    | none => .error (.unexpectedTag kind.name tag)
  | .boxed layout, pos => do doc.locate field layout (← doc.word pos)
  | .sequence element, pos => .ok (.object (.sequence element pos))
  | .optional layout, pos => do
    if ← doc.isAbsent field layout pos then return .absent else doc.locate field layout pos

/-- Opens a place: checks that the bytes of the view, or of the run of elements, lie in the
buffer. -/
def extent (doc : Document) : Place → Except Fault Extent
  | .view kind pos => do
    doc.check pos kind.size
    return ⟨pos, kind.fields.length⟩
  | .sequence element pos => do
    let pointer ← doc.word pos
    let length ← doc.word (doc.offset pos 8)
    doc.check pointer (length * element.size)
    return ⟨pointer, length⟩

/-- Opens a place without telling apart objects. -/
def openPlace (doc : Document) (place : Place) : Except Fault (Item Unit) := do
  return ⟨place, ← doc.extent place, ()⟩

/-- Reads a layout. -/
def read (doc : Document) (field : String) (layout : Layout) (pos : Nat) :
    Except Fault (Datum (Item Unit)) := do
  (← doc.locate field layout pos).traverse doc.openPlace

/-- How a slot of an item is read. -/
structure SlotReading where
  /-- The field that is blamed for a missing encoding of absence. -/
  field : String
  /-- The layout. -/
  layout : Layout
  /-- The offset. -/
  pos : Nat
  /-- Whether the slot keeps what was read. -/
  memoized : Bool

/-- How slot `index` of an item is read, if there is such a slot. -/
def slot? {τ : Type} (doc : Document) (item : Item τ) (index : Nat) : Option SlotReading :=
  match item.place with
  | .view kind _ => do
    let field ← kind.fields[index]?
    return ⟨field.key, field.layout, doc.offset item.extent.base field.offset,
      field.layout.memoized⟩
  | .sequence element _ => do
    guard (index < item.extent.count)
    return ⟨element.name, element,
      doc.offset item.extent.base (doc.addressing.scale index element.size), true⟩

end Document

end FlatSyntax
