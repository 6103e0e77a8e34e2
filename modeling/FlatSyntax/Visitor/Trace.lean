import FlatSyntax.Document.Datum
import FlatSyntax.Visitor.Plan

/-!
# Walks over a document

A walk visits the nodes below a view in the order of the schema and records when it enters and
leaves a node whose kind has a key. It reads tags, pointers and headers straight from the buffer
and skips whatever cannot hold a needed node without reading it. The first fault ends the walk;
what was recorded up to there stays.

Only nodes count towards the limit of nesting. Records, unions, pointers, options and sequences are
passed through, and since each of them is a smaller piece of the schema, every walk ends.
-/

namespace FlatSyntax

/-- A node entered or left by a walk. -/
structure Event where
  /-- Entered or left. -/
  phase : Phase
  /-- The kind of the node. -/
  kind : NodeKind
  /-- The offset of the node. -/
  pos : Nat
  deriving DecidableEq, Repr

/-- A computation that records events and may end in a fault. -/
structure Trace (α : Type) where
  /-- The events, in order. -/
  events : List Event
  /-- How it ended. -/
  result : Except Fault α

namespace Trace

/-- Records nothing. -/
protected def pure {α : Type} (a : α) : Trace α := ⟨[], .ok a⟩

/-- One computation after another, unless the first ends in a fault. -/
protected def bind {α β : Type} (t : Trace α) (f : α → Trace β) : Trace β :=
  match t.result with
  | .ok a =>
    let u := f a
    ⟨t.events ++ u.events, u.result⟩
  | .error fault => ⟨t.events, .error fault⟩

instance : Monad Trace where
  pure := Trace.pure
  bind := Trace.bind

/-- Records one event. -/
def emit (event : Event) : Trace Unit := ⟨[event], .ok ()⟩

/-- The fault that ended a computation, if any. -/
def fault? {α : Type} (t : Trace α) : Option Fault :=
  match t.result with
  | .ok _ => none
  | .error fault => some fault

/-- The outcome of a read, with no event. -/
def ofExcept {α : Type} (result : Except Fault α) : Trace α := ⟨[], result⟩

end Trace

namespace Walk

/-- How a walk reads, prunes and records. The walk itself is the same for one that asks the plan about
every layout and for one that remembers the answers. -/
structure Guide (m : Type → Type) where
  /-- What the walk looks for. -/
  plan : Plan
  /-- Whether a value of a layout can hold a needed node. -/
  reaches : Layout → m Bool
  /-- The outcome of a read. -/
  read : {α : Type} → Except Fault α → m α
  /-- Records an event. -/
  emit : Event → m Unit

/-- A guide that asks the plan every time. -/
def Guide.ofPlan (plan : Plan) : Guide Trace where
  plan := plan
  reaches layout := pure (plan.reaches layout)
  read := Trace.ofExcept
  emit := Trace.emit

variable {m : Type → Type} [Monad m]

/-- Walks a value, given how to walk views. -/
def value (doc : Document) (guide : Guide m) (view : ViewKind → Nat → m Unit) :
    Layout → Nat → m Unit
  | .view kind, pos => view kind pos
  | .union kind, pos => do
    if ← guide.reaches (.union kind) then
      let tag ← guide.read (doc.byte pos)
      match kind.variant? tag with
      | some v =>
        if v.inline then view (.node v.node) (doc.offset pos 8)
        else if ← guide.reaches (.node v.node) then
          view (.node v.node) (← guide.read (doc.word (doc.offset pos 8)))
      | none => guide.read (.error (.unexpectedTag kind.name tag))
  | .boxed layout, pos => do
    if ← guide.reaches layout then
      value doc guide view layout (← guide.read (doc.word pos))
  | .sequence element, pos => do
    if ← guide.reaches element then
      let pointer ← guide.read (doc.word pos)
      let length ← guide.read (doc.word (doc.offset pos 8))
      guide.read (doc.check pointer (length * element.size))
      (List.range length).forM fun index =>
        value doc guide view element
          (doc.offset pointer (doc.addressing.stride index element.size))
  | .optional layout, pos => do
    if ← guide.reaches layout then
      if !(← guide.read (doc.isAbsent layout.name layout pos)) then
        value doc guide view layout pos
  | .byte, _ | .word, _ | .double, _ | .flag, _ | .span, _ | .regExpFlags, _ | .text, _
  | .choice _, _ | .slot _, _ => pure ()

/-- Walks the children of a view, in declaration order. -/
def children (doc : Document) (guide : Guide m) (view : ViewKind → Nat → m Unit) (kind : ViewKind)
    (pos : Nat) : m Unit :=
  kind.children.forM fun field =>
    value doc guide view field.layout (doc.offset pos field.offset)

/-- Walks a record in which at most `level` records nest, given how to walk nodes. -/
def record (doc : Document) (guide : Guide m) (node : NodeKind → Nat → m Unit) :
    Nat → RecordKind → Nat → m Unit
  | 0, _, _ => pure ()
  | level + 1, kind, pos => do
    if ← guide.reaches (.record kind) then
      guide.read (doc.check pos (ViewKind.record kind).size)
      children doc guide
        (fun
          | .node inner, p => node inner p
          | .record inner, p => record doc guide node level inner p)
        (.record kind) pos

/-- Walks a view, given how to walk nodes. -/
def viewVia (doc : Document) (guide : Guide m) (node : NodeKind → Nat → m Unit) :
    ViewKind → Nat → m Unit
  | .node kind, pos => node kind pos
  | .record kind, pos => record doc guide node (kind.rank + 1) kind pos

/-- Records that a node is entered or left, if its kind has a key. -/
def announce (guide : Guide m) (phase : Phase) (kind : NodeKind) (pos : Nat) : m Unit :=
  if guide.plan.registered.contains kind then guide.emit ⟨phase, kind, pos⟩ else pure ()

/-- Walks a node that may nest `depth` levels. -/
def node (doc : Document) (guide : Guide m) : Nat → NodeKind → Nat → m Unit
  | depth, kind, pos =>
    if guide.plan.needed.contains kind then do
      guide.read (doc.check pos (ViewKind.node kind).size)
      match depth with
      | 0 => guide.read (.error (.tooDeep doc.options.maxDepth))
      | below + 1 =>
        announce guide .enter kind pos
        children doc guide (viewVia doc guide (node doc guide below)) (.node kind) pos
        announce guide .exit kind pos
    else pure ()

/-- Walks a view that may nest as many levels as the options allow. -/
def view (doc : Document) (guide : Guide m) (kind : ViewKind) (pos : Nat) : m Unit :=
  viewVia doc guide (node doc guide doc.options.maxDepth) kind pos

end Walk

/-- Walks the nodes of a view. -/
def Document.walk (doc : Document) (plan : Plan) (kind : ViewKind) (pos : Nat) : Trace Unit :=
  Walk.view doc (.ofPlan plan) kind pos

end FlatSyntax
