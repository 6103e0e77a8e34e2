import FlatSyntax.Fault
import FlatSyntax.Number.Double
import FlatSyntax.Number.Width
import FlatSyntax.Span

/-!
# Documents

A document is what is read: a buffer of bytes, the source text that strings in the buffer point
into, and the options for reading it. It never changes. Every read names the range it wants and
fails if the range is not in the buffer.

Offsets are 32 bits wide. Adding to an offset stops at the largest one instead of wrapping around;
`Addressing.exact` is the same arithmetic without a largest offset, for comparison.
-/

namespace FlatSyntax

/-- How a document is read. -/
structure Options where
  /-- Whether a string inside an ASCII source is taken from the source text. -/
  asciiFastPath : Bool := true
  /-- Strings of more bytes than this are decoded at once, shorter ones byte by byte up to the first
  byte that is not ASCII. -/
  shortTextThreshold : Nat := 50
  /-- The deepest nesting that walks and projections follow. -/
  maxDepth : Nat := 256
  deriving DecidableEq, Repr

/-- The arithmetic of offsets. -/
inductive Addressing where
  /-- Offsets have 32 bits, and sums and products stop at the largest. -/
  | saturating
  /-- Offsets have no bound. -/
  | exact
  deriving DecidableEq, Repr

namespace Addressing

/-- An offset moved forward. -/
def add : Addressing → Nat → Nat → Nat
  | .saturating, offset, distance => min (offset + distance) largestWord
  | .exact, offset, distance => offset + distance

/-- The distance of an element from the start of its run, for reading a single element. -/
def scale : Addressing → Nat → Nat → Nat
  | .saturating, index, stride => min (index * stride) largestWord
  | .exact, index, stride => index * stride

/-- The distance of an element from the start of its run, for walking all elements: a product of 32
bits, which wraps around. -/
def stride : Addressing → Nat → Nat → Nat
  | .saturating, index, size => index * size % wordModulus
  | .exact, index, size => index * size

end Addressing

/-- A buffer with the source it was made from and the options for reading it. -/
structure Document where
  /-- The bytes. -/
  buffer : Array UInt8
  /-- The source text. -/
  sourceText : String
  /-- Whether the source is said to be ASCII. -/
  sourceIsAscii : Bool
  /-- The length of the source at the start of the buffer, in bytes. -/
  sourceLength : Nat
  /-- How to read. -/
  options : Options
  /-- How offsets are computed. -/
  addressing : Addressing := .saturating

/-- The number that bytes stand for, least significant byte first. -/
def littleEndian : List UInt8 → Nat
  | [] => 0
  | byte :: rest => byte.toNat + 256 * littleEndian rest

namespace Document

/-- The number of bytes of the buffer. -/
def size (doc : Document) : Nat := doc.buffer.size

/-- An offset moved forward. -/
def offset (doc : Document) (pos distance : Nat) : Nat := doc.addressing.add pos distance

/-- Checks that `length` bytes at `pos` lie in the buffer. -/
def check (doc : Document) (pos length : Nat) : Except Fault Unit :=
  if pos + length ≤ doc.size then .ok () else .error (.outOfBounds pos length doc.size)

/-- The `length` bytes at `pos`. -/
def bytes (doc : Document) (pos length : Nat) : Except Fault (List UInt8) := do
  doc.check pos length
  return (doc.buffer.extract pos (pos + length)).toList

/-- The byte at `pos`. -/
def byte (doc : Document) (pos : Nat) : Except Fault UInt8 := do
  return (← doc.bytes pos 1).headD 0

/-- The number of 32 bits at `pos`. -/
def word (doc : Document) (pos : Nat) : Except Fault Nat := do
  return littleEndian (← doc.bytes pos 4)

/-- The number of 64 bits at `pos`. -/
def long (doc : Document) (pos : Nat) : Except Fault Nat := do
  return littleEndian (← doc.bytes pos 8)

/-- The double-precision number at `pos`. -/
def double (doc : Document) (pos : Nat) : Except Fault Double := do
  return ⟨UInt64.ofNat (← doc.long pos)⟩

/-- The truth value at `pos`: whether the byte is 1. -/
def flag (doc : Document) (pos : Nat) : Except Fault Bool := do
  return (← doc.byte pos) == 1

/-- The source range at `pos`: its start, then its end. -/
def span (doc : Document) (pos : Nat) : Except Fault Span := do
  let start ← doc.word pos
  let stop ← doc.word (doc.offset pos 4)
  return ⟨start, stop⟩

/-- Where the trailer at the end of a buffer starts, counted from the end. -/
def trailerSize : Nat := 16

/-- The offset of the root record, as the trailer of the buffer names it. -/
def trailerRoot (doc : Document) : Except Fault Nat :=
  if doc.size < trailerSize then .error (.outOfBounds (doc.size - trailerSize) 4 doc.size)
  else doc.word (doc.size - trailerSize)

end Document

end FlatSyntax
