import FlatSyntax.Document.Datum
import FlatSyntax.Value.Basic

/-!
# Projection

The plain value of a view and of everything below it. A projection asks for slots one by one and
does not care how they are read, so it is written once for every kind of access: `Document.access`
reads the buffer each time, and a session keeps what it has read.

Nodes and records are counted, and nesting past the limit is a fault; sequences are not counted. A
session keeps the count itself, since it is one count for everything that is read in the session, so
a way of access also says what it is to go one level deeper.
-/

namespace FlatSyntax

/-- A way of reading slots. -/
structure Access (m : Type → Type) (τ : Type) where
  /-- Reads a slot of an item. -/
  slot : Item τ → Nat → m (Datum (Item τ))
  /-- Projects a view one level deeper. -/
  nested : m Value → m Value

/-- Reads slots from the buffer. A slot that does not exist holds nothing. -/
def Document.access (doc : Document) : Access (Except Fault) Unit where
  slot item index :=
    match doc.slot? item index with
    | some r => doc.read r.field r.layout r.pos
    | none => .ok .absent
  nested below := below

/-- The layout of what is at a place. -/
def Place.layout : Place → Layout
  | .view kind _ => .view kind
  | .sequence element _ => .sequence element

/-- The plain value of a datum without a view or a sequence in it. -/
def Datum.scalar {ω : Type} : Datum ω → Value
  | .byte b => .ofNat b.toNat
  | .word n => .ofNat n
  | .double x => .number x
  | .flag b => .boolean b
  | .span s => .object (Entries.ofList [("start", .ofNat s.start), ("end", .ofNat s.stop)])
  | .regExpFlags flags => .string flags.text
  | .text t => .string t.content
  | .choice _ member => .string member.text
  | .kind k => .string k.name
  | .absent | .object _ | .variant _ _ _ | .slot _ _ _ => .null

/-- The string of a datum. -/
def Datum.textOr {ω : Type} (other : Text) : Datum ω → Text
  | .text t => t
  | _ => other

/-- The number of a datum. -/
def Datum.wordOr {ω : Type} (other : Nat) : Datum ω → Nat
  | .word n => n
  | _ => other

namespace Projection

variable {m : Type → Type} [Monad m] [MonadExceptOf Fault m] {τ : Type}

/-- The name and the source range in a name slot. A name is a record with its text, its start and
its end, read in this order. -/
def slotParts (access : Access m τ) : SlotContent (Item τ) → m (Option Text × Option Span)
  | .nothing => pure (none, none)
  | .range span => pure (none, some span)
  | .name item => do
    let text ← access.slot item 0
    let start ← access.slot item 1
    let stop ← access.slot item 2
    return (some (text.textOr ⟨"", false⟩), some ⟨start.wordOr 0, stop.wordOr 0⟩)

/-- The plain value of a name slot, with null for what it lacks. -/
def slotValue (c : SlotCase) (name : Option Text) (span : Option Span) : Value :=
  .object (Entries.ofList [
    ("kind", .string c.text),
    ("name", name.elim .null fun text => .string text.content),
    ("start", span.elim .null fun s => .ofNat s.start),
    ("end", span.elim .null fun s => .ofNat s.stop)])

/-- The plain value of a datum that is not a sequence, given the plain values of views. -/
def single (access : Access m τ) (view : Item τ → m Value) : Datum (Item τ) → m Value
  | .object item => view item
  | .variant _ _ item => view item
  | .slot _ c content => do
    let (name, span) ← slotParts access content
    return slotValue c name span
  | d => pure d.scalar

/-- The plain value of what reading a layout gave, given the plain values of views. -/
def datum (access : Access m τ) (view : Item τ → m Value) : Layout → Datum (Item τ) → m Value
  | .boxed layout, d => datum access view layout d
  | .optional _, .absent => pure .null
  | .optional layout, d => datum access view layout d
  | .sequence layout, .object item => do
    let values ← (List.range item.extent.count).mapM fun index => do
      datum access view layout (← access.slot item index)
    return .array values
  | _, d => single access view d

/-- The entries of the fields of a view, given the plain values of views. -/
def fields (access : Access m τ) (view : Item τ → m Value) (kind : ViewKind) (item : Item τ) :
    m (List (String × Value)) :=
  kind.fields.zipIdx.foldlM (fun entries (field, index) => do
    let value ← datum access view field.layout (← access.slot item index)
    return Entries.insert field.key value entries) []

/-- The entries of a node: its kind, unless a field says what the type is, and its source range. -/
def tagged (kind : NodeKind) (span : Span) (entries : List (String × Value)) :
    List (String × Value) :=
  let typed :=
    if (Entries.get? entries "type").isSome then entries
    else Entries.insert "type" (.string kind.name) entries
  Entries.insert "end" (.ofNat span.stop) (Entries.insert "start" (.ofNat span.start) typed)

/-- The plain value of a view that may nest `depth` levels. -/
def view (doc : Document) (access : Access m τ) : Nat → Item τ → m Value
  | 0, _ => throw (.tooDeep doc.options.maxDepth)
  | depth + 1, item =>
    access.nested <|
      match item.place with
      | .view (.node kind) pos => do
        let entries ← fields access (view doc access depth) (.node kind) item
        let span ← MonadExcept.ofExcept (doc.span pos)
        return .object (tagged kind span entries)
      | .view (.record kind) _ => do
        return .object (← fields access (view doc access depth) (.record kind) item)
      | .sequence _ _ => pure .null

/-- The plain value of what reading a layout gave. -/
def project (doc : Document) (access : Access m τ) (layout : Layout) (d : Datum (Item τ)) :
    m Value :=
  datum access (view doc access doc.options.maxDepth) layout d

end Projection

/-- The plain value of a layout at an offset, read from the buffer alone. -/
def Document.project (doc : Document) (field : String) (layout : Layout) (pos : Nat) :
    Except Fault Value := do
  Projection.project doc doc.access layout (← doc.read field layout pos)

end FlatSyntax
