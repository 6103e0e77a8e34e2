import FlatSyntax.Kind.Set
import FlatSyntax.Schema.Catalogue

/-!
# Reach

Which nodes a value can hold nearest to itself. A node reaches only its own kind; a record reaches
what its children reach, since it has no kind of its own; a union reaches the nodes of its variants.
The child relation between kinds, and with it the kinds worth descending into, follows.
-/

namespace FlatSyntax

/-- How deep records nest in one another along child fields. A record's children hold only records
of smaller rank. -/
def RecordKind.rank : RecordKind → Nat
  | .formalParameter | .catchParameter => 1
  | _ => 0

/-- The kinds a value can hold as nearest nodes, given what each record reaches. -/
def Layout.reachVia (record : RecordKind → KindSet) : Layout → KindSet
  | .view (.node kind) => KindSet.empty.insert kind
  | .view (.record kind) => record kind
  | .union kind => KindSet.ofList (kind.variants.map Variant.node)
  | .boxed target => target.reachVia record
  | .sequence element => element.reachVia record
  | .optional value => value.reachVia record
  | .byte | .word | .double | .flag | .span | .regExpFlags | .text | .choice _ | .slot _ => ∅

/-- The kinds the children of a view can hold as nearest nodes, given what each record reaches. -/
def ViewKind.reachVia (record : RecordKind → KindSet) (kind : ViewKind) : KindSet :=
  kind.children.foldl (fun kinds f => kinds.union (f.layout.reachVia record)) ∅

/-- The kinds a record reaches through at most `level` records. -/
def RecordKind.reachWithin : Nat → RecordKind → KindSet
  | 0, _ => ∅
  | level + 1, kind => ViewKind.reachVia (reachWithin level) (.record kind)

/-- The kinds a record reaches. -/
def RecordKind.reach (kind : RecordKind) : KindSet := kind.reachWithin (kind.rank + 1)

/-- The kinds a value can hold as nearest nodes. -/
def Layout.reach (layout : Layout) : KindSet := layout.reachVia RecordKind.reach

/-- The kinds that can appear as nearest nodes below a node. -/
def NodeKind.reach (kind : NodeKind) : KindSet := ViewKind.reachVia RecordKind.reach (.node kind)

namespace KindSet

/-- One round of the search for needed kinds: in declaration order, each kind that reaches a kind
found so far is added. -/
def grow (reach : List (NodeKind × KindSet)) (found : KindSet) : KindSet :=
  reach.foldl (fun found (kind, below) =>
    if below.intersects found then found.insert kind else found)
    found

/-- Rounds of the search until one adds nothing, at most as many as given. -/
def growTimes (reach : List (NodeKind × KindSet)) : Nat → KindSet → KindSet
  | 0, found => found
  | rounds + 1, found =>
    let next := grow reach found
    if next = found then found else growTimes reach rounds next

/-- The kinds that are registered or can hold, at any depth, a kind that is. Every round but the
last adds a kind, so there are at most as many rounds as kinds, and one more. -/
def needed (registered : KindSet) : KindSet :=
  growTimes (NodeKind.all.map fun kind => (kind, kind.reach)) (NodeKind.count + 1) registered

end KindSet

end FlatSyntax
