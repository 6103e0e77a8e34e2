import FlatSyntax.Document.Datum
import FlatSyntax.Sequence.Notes

/-!
# The heap of a session

The views and sequences that a session has built. Each has a serial number, its turn in the order
of construction, and slots that keep what has been read of it. An object that nothing holds any
longer is let go: its entry becomes empty, and its number is never used again. So the size of the
heap is the number of constructions, and the entries that are not empty are the live objects.

Objects hold one another through their slots. An object is let go when nothing holds it, and with it
what only it held. So objects that hold one another in a circle, and what they hold, stay live for
the rest of the session.

Beside the objects there is an index from places to serial numbers, by which a request finds the
object that is already there. The index holds nothing: an entry outlives its object, and is
overwritten when the place is built again.
-/

namespace FlatSyntax

/-- A view or sequence of a session, by the serial number of its object. -/
abbrev Link := Item Nat

/-- A view or sequence that has been built. -/
structure Object where
  /-- What it is and where. -/
  place : Place
  /-- Where its slots are read from. -/
  extent : Extent
  /-- What its slots have kept. -/
  slots : Array (Option (Datum Link))
  /-- The notes beside it, if it is a sequence. -/
  notes : Notes

namespace Object

/-- The object at a place that has just been opened. -/
def fresh (place : Place) (extent : Extent) : Object :=
  ⟨place, extent, Array.replicate extent.count none, []⟩

/-- The serial numbers of the objects that the slots hold. -/
def links (o : Object) : List Nat :=
  o.slots.toList.filterMap fun slot => (slot.bind Datum.object?).map Item.mark

end Object

/-- The objects of a session by serial number; the entry of an object that was let go is empty. -/
structure Heap where
  /-- The entries. -/
  objects : Array (Option Object)
  /-- The object built last at each place, which may have been let go since. -/
  index : List (Place × Nat) := []

namespace Heap

/-- The heap of a session that has built nothing. -/
def empty : Heap := ⟨#[], []⟩

/-- The number of objects built so far. -/
def constructed (h : Heap) : Nat := h.objects.size

/-- The number of live objects. -/
def live (h : Heap) : Nat := h.objects.countP Option.isSome

/-- The live object with a serial number. -/
def get? (h : Heap) (serial : Nat) : Option Object := h.objects[serial]?.join

/-- The number of places in the index whose object is live. -/
def liveViews (h : Heap) : Nat := h.index.countP fun entry => (h.get? entry.2).isSome

/-- The serial number of the live object at a place. -/
def find? (h : Heap) (place : Place) : Option Nat :=
  (h.index.lookup place).filter fun serial => (h.get? serial).isSome

/-- Adds an object, gives it the next serial number and enters it in the index. -/
def add (h : Heap) (o : Object) : Nat × Heap :=
  let serial := h.objects.size
  let others := h.index.filter fun entry => entry.1 != o.place
  (serial, ⟨h.objects.push (some o), (o.place, serial) :: others⟩)

/-- Changes a live object. -/
def modify (h : Heap) (serial : Nat) (f : Object → Object) : Heap :=
  { h with objects := h.objects.modify serial (Option.map f) }

/-- What a slot of a live object has kept. -/
def slot? (h : Heap) (serial index : Nat) : Option (Datum Link) :=
  (h.get? serial).bind fun o => o.slots[index]?.join

/-- Keeps what was read of a slot. -/
def fill (h : Heap) (serial index : Nat) (d : Datum Link) : Heap :=
  h.modify serial fun o => { o with slots := o.slots.setIfInBounds index (some d) }

/-- For each serial number, whether it is listed or a live object holds it. -/
def held (h : Heap) (roots : List Nat) : Array Bool :=
  let links := h.objects.toList.flatMap fun entry => (entry.map Object.links).getD []
  (roots ++ links).foldl (fun table serial => table.setIfInBounds serial true)
    (Array.replicate h.objects.size false)

/-- Lets go of the objects that are neither listed nor held. -/
def sweep (h : Heap) (roots : List Nat) : Heap :=
  let table := h.held roots
  { h with
    objects :=
      h.objects.mapIdx fun serial entry => if table[serial]? = some true then entry else none }

/-- Sweeps until everything that is left is listed or held by something that is left. -/
def collect (h : Heap) (roots : List Nat) : Heap :=
  let swept := h.sweep roots
  if swept.live < h.live then swept.collect roots else h
termination_by h.live

end Heap

end FlatSyntax
