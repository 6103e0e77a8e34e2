import FlatSyntax.Document.Projection
import FlatSyntax.Sequence.Reads

/-!
# Paths

A path leads from a datum to another, one segment at a time: a key selects a field of a view, or of
the node in a union, and an index selects an element of a sequence. Following a path reads what it
passes. Like a projection it is written once for every way of reading slots.
-/

namespace FlatSyntax

/-- One step of a path. -/
inductive Segment where
  /-- The field of that key. -/
  | key (name : String)
  /-- The element of that index. -/
  | index (n : Nat)
  deriving DecidableEq, Repr

namespace Datum

/-- The view in a datum: the view itself, or the node in a union. -/
def view? {τ : Type} : Datum (Item τ) → Option (ViewKind × Nat × Item τ)
  | .object item | .variant _ _ item =>
    match item.place with
    | .view k pos => some (k, pos, item)
    | .sequence _ _ => none
  | _ => none

/-- The sequence in a datum, with the layout of its elements. -/
def sequence? {τ : Type} : Datum (Item τ) → Option (Layout × Item τ)
  | .object item =>
    match item.place with
    | .sequence element _ => some (element, item)
    | .view _ _ => none
  | _ => none

/-- The layout to project a view, a union or a sequence with. -/
def layout? {τ : Type} : Datum (Item τ) → Option Layout
  | .object item => some item.place.layout
  | .variant k _ _ => some (.union k)
  | _ => none

end Datum

namespace Document

/-- The source text of the node at an offset. -/
def nodeText (doc : Document) (pos : Nat) : Except Fault Text := do
  doc.sourceOf (← doc.span pos)

/-- What every node has besides its fields: its source range, its source text and its kind. -/
def property {ω : Type} (doc : Document) (kind : NodeKind) (pos : Nat) :
    String → Except Fault (Option (Datum ω))
  | "$start" => do return some (.word (← doc.span pos).start)
  | "$end" => do return some (.word (← doc.span pos).stop)
  | "$span" => do return some (.span (← doc.span pos))
  | "$text" => do return some (.text (← doc.nodeText pos))
  | "$kind" => return some (.kind kind)
  | _ => return none

end Document

/-- The elements of a sequence. -/
def Access.elements {m : Type → Type} {τ : Type} (access : Access m τ) (item : Item τ) :
    Elements m (Datum (Item τ)) := ⟨item.extent.count, access.slot item⟩

namespace Path

variable {m : Type → Type} [Monad m] [MonadExceptOf Fault m] {τ : Type}

/-- What a key selects of a view. -/
def field (doc : Document) (access : Access m τ) (kind : ViewKind) (pos : Nat) (item : Item τ)
    (name : String) : m (Option (Datum (Item τ))) :=
  match kind.fields.findIdx? fun field => field.key == name with
  | some index => some <$> access.slot item index
  | none =>
    match kind with
    | .node k => MonadExcept.ofExcept (doc.property k pos name)
    | .record _ => pure none

/-- Follows a segment; `none` if it leads nowhere. -/
def child (doc : Document) (access : Access m τ) (d : Datum (Item τ)) :
    Segment → m (Option (Datum (Item τ)))
  | .key name =>
    match d.view? with
    | some (kind, pos, item) => field doc access kind pos item name
    | none => pure none
  | .index n =>
    match d.sequence? with
    | some (_, item) => (access.elements item).get? n
    | none => pure none

/-- Follows a path; `none` if it leads nowhere. -/
def follow (doc : Document) (access : Access m τ) (d : Datum (Item τ)) :
    List Segment → m (Option (Datum (Item τ)))
  | [] => pure (some d)
  | segment :: rest => do
    match ← child doc access d segment with
    | some next => follow doc access next rest
    | none => return none

end Path

end FlatSyntax
