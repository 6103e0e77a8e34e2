import FlatSyntax.Fault
import FlatSyntax.Schema.Reach

/-!
# Visitor keys and plans

A visitor is registered under keys. A key is the name of a node kind, for entering nodes of that
kind, or the name followed by `:exit`, for leaving them. The keys are filed in two tables, one for
each phase, under the kinds that they name. A plan holds the tables and the kinds worth descending
into: those from which a kind with a key can be reached.
-/

namespace FlatSyntax

/-- When a visitor is called for a node. -/
inductive Phase where
  /-- Before the children. -/
  | enter
  /-- After the children. -/
  | exit
  deriving DecidableEq, Repr

/-- The name of a phase. -/
def Phase.name : Phase → String
  | .enter => "enter"
  | .exit => "exit"

/-- What a visitor is registered for. -/
structure VisitorKey where
  /-- The kind of node. -/
  kind : NodeKind
  /-- Before or after the children. -/
  phase : Phase
  deriving DecidableEq, Repr

namespace VisitorKey

/-- What follows the kind in a key for leaving. -/
def exitMark : List Char := ":exit".toList

/-- The name and the phase in a key: one mark for leaving is taken off the end. -/
def split (key : List Char) : List Char × Phase :=
  if exitMark.isSuffixOf key then (key.take (key.length - exitMark.length), .exit)
  else (key, .enter)

/-- Reads a key. What is left of it without the mark has to be the name of a kind, and it is
malformed rather than unknown if it is empty or has a colon. -/
def parse (key : String) : Except Fault VisitorKey :=
  let (name, phase) := split key.toList
  if name.isEmpty || name.contains ':' then .error (.malformedKey key)
  else
    match NodeKind.ofName? (String.ofList name) with
    | some kind => .ok ⟨kind, phase⟩
    | none => .error (.unknownKind (String.ofList name))

/-- The text of a key. -/
def text (key : VisitorKey) : String :=
  match key.phase with
  | .enter => key.kind.name
  | .exit => key.kind.name ++ String.ofList exitMark

end VisitorKey

/-- What is called in one phase: for each kind, at its position in the declaration order, the
positions of the keys that are filed for it. -/
abbrev Table := Vector (Array Nat) NodeKind.count

namespace Table

/-- The table before any key is filed. -/
def empty : Table := .replicate NodeKind.count #[]

/-- What is filed for a kind. -/
def row (table : Table) (kind : NodeKind) : Array Nat :=
  table.get ⟨kind.index, kind.index_lt_count⟩

/-- The table with one more position filed for a kind. -/
def push (table : Table) (kind : NodeKind) (position : Nat) : Table :=
  table.set kind.index ((table.row kind).push position) kind.index_lt_count

end Table

/-- The keys of a visitor as far as they have been read, filed by phase and by kind. -/
structure Filing where
  /-- What is called on entering nodes. -/
  enter : Table := .empty
  /-- What is called on leaving nodes. -/
  exit : Table := .empty
  /-- The kinds with a key. -/
  registered : KindSet := ∅

namespace Filing

/-- The table of a phase. -/
def table (filing : Filing) : Phase → Table
  | .enter => filing.enter
  | .exit => filing.exit

/-- Files the key at a position. -/
def file (filing : Filing) (key : VisitorKey) (position : Nat) : Filing :=
  let registered := filing.registered.insert key.kind
  match key.phase with
  | .enter => { filing with registered, enter := filing.enter.push key.kind position }
  | .exit => { filing with registered, exit := filing.exit.push key.kind position }

/-- Reads the key at a position and files it. -/
def read (filing : Filing) (key : String) (position : Nat) : Except Fault Filing := do
  return filing.file (← VisitorKey.parse key) position

/-- The positions of the keys to call for a phase and a kind, in the order they were filed. -/
def callbacks (filing : Filing) (phase : Phase) (kind : NodeKind) : List Nat :=
  ((filing.table phase).row kind).toList

end Filing

/-- Visitor keys with the kinds they make worth descending into. -/
structure Plan extends Filing where
  /-- The kinds with a key, and those that can hold one of them at any depth. -/
  needed : KindSet

namespace Plan

/-- The plan for keys that have been filed. -/
def ofFiling (filing : Filing) : Plan := { filing with needed := filing.registered.needed }

/-- The plan for keys: they are filed one after another. -/
def ofKeys (keys : List VisitorKey) : Plan :=
  ofFiling (keys.zipIdx.foldl (fun filing entry => filing.file entry.1 entry.2) {})

/-- Reads the keys of a visitor and files them, one after another; the first that cannot be read is
at fault. -/
def compile (keys : List String) : Except Fault Plan := do
  return ofFiling (← keys.zipIdx.foldlM (fun filing entry => filing.read entry.1 entry.2) {})

/-- Whether a value of a layout can hold a needed node. -/
def reaches (plan : Plan) (layout : Layout) : Bool := layout.reach.intersects plan.needed

/-- A plan by its two sets of kinds. -/
def render (plan : Plan) : String :=
  "CompiledVisitor \x7b registered: " ++ plan.registered.render ++ ", needed: " ++
    plan.needed.render ++ ", .. \x7d"

end Plan

end FlatSyntax
