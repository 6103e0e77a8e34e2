import FlatSyntax.Number.Width
import FlatSyntax.Text.Utf8

/-!
# Building a buffer

A buffer is assembled by hand: the source text lies at the start, and every allocation after it
begins at a multiple of eight and is filled with zeros. A write past the end grows the buffer. A
pointer is a word of 64 bits whose upper half is one, so that a pointer to the start differs from
no pointer; readers use the lower half.
-/

namespace FlatSyntax

/-- A buffer under construction. -/
structure Builder where
  /-- The bytes so far. -/
  buffer : Array UInt8
  /-- The source text. -/
  source : String
  /-- The root record written last. -/
  root : Option Nat := none

namespace Builder

/-- Allocations begin at multiples of this. -/
def alignment : Nat := 8

/-- The bytes of the trailer of a finished buffer. -/
def trailerSize : Nat := 16

/-- The bytes of the root record. -/
def rootSize : Nat := 280

/-- The bytes of an element of a sequence of unions. -/
def unionSize : Nat := 16

/-- The bytes of a number, least significant first; what does not fit is dropped. -/
def encode : Nat → Nat → List UInt8
  | 0, _ => []
  | width + 1, n => UInt8.ofNat n :: encode width (n / 256)

/-- Adds zeros up to a length. -/
def extend (buffer : Array UInt8) (length : Nat) : Array UInt8 :=
  buffer ++ Array.replicate (length - buffer.size) 0

/-- Writes bytes over the bytes at an offset. -/
def overlay (buffer : Array UInt8) (pos : Nat) : List UInt8 → Array UInt8
  | [] => buffer
  | byte :: rest => overlay (buffer.setIfInBounds pos byte) (pos + 1) rest

/-- The least multiple of the alignment that is not below a length. -/
def aligned (length : Nat) : Nat := (length + alignment - 1) / alignment * alignment

/-- Adds zeros up to the next multiple of the alignment. -/
def pad (b : Builder) : Builder := { b with buffer := extend b.buffer (aligned b.buffer.size) }

/-- A buffer that holds the source text. -/
def ofSource (source : String) : Builder :=
  pad { buffer := (Utf8.encode source).toArray, source }

/-- The length of the source text, in bytes. -/
def sourceLength (b : Builder) : Nat := b.source.utf8ByteSize

/-- The length of the buffer. -/
def length (b : Builder) : Nat := b.buffer.size

/-- Reserves zeros, and the offset of the first. -/
def alloc (b : Builder) (size : Nat) : Nat × Builder :=
  let padded := b.pad
  (padded.length, { padded with buffer := extend padded.buffer (padded.length + size) })

/-- Writes bytes at an offset, growing the buffer if it ends before them. -/
def bytes (b : Builder) (pos : Nat) (bytes : List UInt8) : Builder :=
  { b with buffer := overlay (extend b.buffer (pos + bytes.length)) pos bytes }

/-- Writes a byte. -/
def byte (b : Builder) (pos : Nat) (value : UInt8) : Builder := b.bytes pos [value]

/-- Writes a number of 32 bits. -/
def word (b : Builder) (pos value : Nat) : Builder := b.bytes pos (encode 4 value)

/-- Writes a number of 64 bits. -/
def long (b : Builder) (pos value : Nat) : Builder := b.bytes pos (encode 8 value)

/-- Writes a truth value as 0 or 1. -/
def flag (b : Builder) (pos : Nat) (value : Bool) : Builder := b.byte pos (if value then 1 else 0)

/-- Writes a source range: its start, then its end. -/
def span (b : Builder) (pos start stop : Nat) : Builder := (b.word pos start).word (pos + 4) stop

/-- Writes a pointer. -/
def pointer (b : Builder) (pos target : Nat) : Builder := b.long pos (wordModulus + target)

/-- Writes a union: a tag and a pointer. -/
def union (b : Builder) (pos : Nat) (tag : UInt8) (target : Nat) : Builder :=
  (b.byte pos tag).pointer (pos + 8) target

/-- Writes the header of a sequence: a pointer, the length, and the length as capacity. -/
def header (b : Builder) (pos target count : Nat) : Builder :=
  ((b.pointer pos target).word (pos + 8) count).word (pos + 16) count

/-- Reserves the elements of a sequence and writes its header, and the offset of the first element.
-/
def sequence (b : Builder) (pos stride count : Nat) : Nat × Builder :=
  let (target, b) := b.alloc (stride * count % wordModulus)
  (target, b.header pos target count)

/-- Writes unions one after the other. -/
def fillUnions (b : Builder) (pos : Nat) (items : List (UInt8 × Nat)) : Builder :=
  items.zipIdx.foldl (fun b (item, index) => b.union (pos + unionSize * index) item.1 item.2) b

/-- Reserves a sequence of unions, writes its header and fills it. -/
def unions (b : Builder) (pos : Nat) (items : List (UInt8 × Nat)) : Builder :=
  let (target, b) := b.sequence pos unionSize items.length
  b.fillUnions target items

/-- Writes the header of a string that lies in the source text. -/
def sourceString (b : Builder) (pos start stop : Nat) : Builder :=
  (b.pointer pos start).word (pos + 8) (wordModulus + stop - start)

/-- Adds the bytes of a string after everything else and writes its header. An empty string points
to the source. -/
def rawString (b : Builder) (pos : Nat) (bytes : List UInt8) : Builder :=
  if bytes.isEmpty then (b.pointer pos 0).word (pos + 8) 0
  else
    let (target, b) := b.alloc bytes.length
    ((b.bytes target bytes).pointer pos target).word (pos + 8) bytes.length

/-- Adds a text after everything else and writes its header. -/
def string (b : Builder) (pos : Nat) (text : String) : Builder := b.rawString pos (Utf8.encode text)

/-- Reserves a node and writes its source range, and the offset of the node. -/
def node (b : Builder) (size start stop : Nat) : Nat × Builder :=
  let (pos, b) := b.alloc size
  (pos, b.span pos start stop)

/-- Writes a root record with a program that has the given statements, and its offset. The byte at
125 says that the program is a module. -/
def program (b : Builder) (start stop : Nat) (body : List (UInt8 × Nat)) : Nat × Builder :=
  let (root, b) := b.alloc rootSize
  let b := ((b.span root start stop).byte (root + 125) 1).unions (root + 96) body
  (root, { b with root := some root })

/-- Writes a root record with a program without statements that spans the source. -/
def emptyRoot (b : Builder) : Nat × Builder := b.program 0 b.sourceLength []

/-- The finished buffer: a trailer is added that names the root record written last. -/
def finish (b : Builder) : Array UInt8 :=
  let (trailer, b) := b.alloc trailerSize
  match b.root with
  | some root => (b.word trailer root).buffer
  | none => b.buffer

end Builder

/-- A call to a builder. -/
inductive BuildCall where
  /-- Reserve zeros. -/
  | alloc (size : Nat)
  /-- Reserve a node and write its source range. -/
  | node (size start stop : Nat)
  /-- Write bytes. -/
  | bytes (pos : Nat) (bytes : List UInt8)
  /-- Write a byte. -/
  | byte (pos : Nat) (value : UInt8)
  /-- Write a number of 32 bits. -/
  | word (pos value : Nat)
  /-- Write a number of 64 bits, or the pattern of a double-precision number. -/
  | long (pos value : Nat)
  /-- Write a truth value. -/
  | flag (pos : Nat) (value : Bool)
  /-- Write a source range. -/
  | span (pos start stop : Nat)
  /-- Write a pointer. -/
  | pointer (pos target : Nat)
  /-- Write a union. -/
  | union (pos : Nat) (tag : UInt8) (target : Nat)
  /-- Write the header of a sequence. -/
  | header (pos target count : Nat)
  /-- Reserve a sequence. -/
  | sequence (pos stride count : Nat)
  /-- Reserve and fill a sequence of unions. -/
  | unions (pos : Nat) (items : List (UInt8 × Nat))
  /-- Write the header of a string in the source. -/
  | sourceString (pos start stop : Nat)
  /-- Add a string given by its bytes. -/
  | rawString (pos : Nat) (bytes : List UInt8)
  /-- Add a string given by its text. -/
  | string (pos : Nat) (text : String)
  /-- Write a root record. -/
  | program (start stop : Nat) (body : List (UInt8 × Nat))
  /-- Write a root record with an empty program. -/
  | emptyRoot
  /-- Ask for the lengths. -/
  | length

/-- What a call to a builder answers. -/
inductive BuildAnswer where
  /-- Nothing. -/
  | nothing
  /-- The offset of what was reserved. -/
  | offset (pos : Nat)
  /-- The lengths of buffer and source, and whether the buffer is empty. -/
  | lengths (length sourceLength : Nat) (isEmpty : Bool)

namespace Builder

/-- Makes a call. -/
def call (b : Builder) : BuildCall → BuildAnswer × Builder
  | .alloc size => reserved (b.alloc size)
  | .node size start stop => reserved (b.node size start stop)
  | .bytes pos bytes => (.nothing, b.bytes pos bytes)
  | .byte pos value => (.nothing, b.byte pos value)
  | .word pos value => (.nothing, b.word pos value)
  | .long pos value => (.nothing, b.long pos value)
  | .flag pos value => (.nothing, b.flag pos value)
  | .span pos start stop => (.nothing, b.span pos start stop)
  | .pointer pos target => (.nothing, b.pointer pos target)
  | .union pos tag target => (.nothing, b.union pos tag target)
  | .header pos target count => (.nothing, b.header pos target count)
  | .sequence pos stride count => reserved (b.sequence pos stride count)
  | .unions pos items => (.nothing, b.unions pos items)
  | .sourceString pos start stop => (.nothing, b.sourceString pos start stop)
  | .rawString pos bytes => (.nothing, b.rawString pos bytes)
  | .string pos text => (.nothing, b.string pos text)
  | .program start stop body => reserved (b.program start stop body)
  | .emptyRoot => reserved b.emptyRoot
  | .length => (.lengths b.length b.sourceLength (b.length == 0), b)
where
  /-- The answer to a call that reserves. -/
  reserved : Nat × Builder → BuildAnswer × Builder
    | (pos, b) => (.offset pos, b)

/-- Makes calls one after the other. -/
def callAll (b : Builder) (calls : List BuildCall) : Builder :=
  calls.foldl (fun b c => (b.call c).2) b

end Builder

end FlatSyntax
