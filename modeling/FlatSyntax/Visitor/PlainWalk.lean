import FlatSyntax.Value.Basic
import FlatSyntax.Visitor.Plan

/-!
# Walks over plain values

The same walk over a projected tree. A node object is known by its `"type"` tag, and the children
of a node are the entries under its visit keys, in that order; any other object is walked through
in the order of its keys. Such a walk has no faults.
-/

namespace FlatSyntax

/-- A node object entered or left by a walk. -/
structure PlainEvent where
  /-- Entered or left. -/
  phase : Phase
  /-- The kind of the node. -/
  kind : NodeKind
  /-- The node object. -/
  object : Value

namespace PlainWalk

/-- Records that a node object is entered or left, if its kind has a key. -/
def announce (plan : Plan) (phase : Phase) (kind : NodeKind) (object : Value) : List PlainEvent :=
  if plan.registered.contains kind then [⟨phase, kind, object⟩] else []

/-- The events of an object, given the events of the values under its keys. -/
def object (plan : Plan) (entries : List (String × Value))
    (below : List (String × List PlainEvent)) : List PlainEvent :=
  match (Value.object entries).typeTag?.bind NodeKind.ofTag? with
  | some kind =>
    if plan.needed.contains kind then
      announce plan .enter kind (.object entries) ++
        kind.visitKeys.flatMap (fun key => (Entries.get? below key).getD []) ++
        announce plan .exit kind (.object entries)
    else []
  | none => below.flatMap Prod.snd

mutual

/-- The events of a value. -/
def value (plan : Plan) : Value → List PlainEvent
  | .array items => valueOfItems plan items
  | .object entries => object plan entries (valueOfEntries plan entries)
  | .null | .boolean _ | .number _ | .string _ => []

/-- The events of the items of an array. -/
def valueOfItems (plan : Plan) : List Value → List PlainEvent
  | [] => []
  | item :: items => value plan item ++ valueOfItems plan items

/-- The events of the values under the keys of an object, each by its key. -/
def valueOfEntries (plan : Plan) : List (String × Value) → List (String × List PlainEvent)
  | [] => []
  | (key, item) :: entries => (key, value plan item) :: valueOfEntries plan entries

end

end PlainWalk

/-- The log of a walk over a plain value: for each event the keys that are called, by position. -/
def Plan.plainLog (plan : Plan) (root : Value) : List (Nat × PlainEvent) :=
  (PlainWalk.value plan root).flatMap fun event =>
    (plan.callbacks event.phase event.kind).map fun index => (index, event)

end FlatSyntax
