import Mathlib
import FlatSyntax.Proofs.Builder
import FlatSyntax.Proofs.DocumentReads

/-!
# The memory of a builder

Whatever is called, a builder does two things to its buffer: it reserves zeros behind the end, or it
writes bytes somewhere. The parts of a call list these, with offsets. After any number of calls the
buffer is what their parts say: it is as long as the part that goes furthest, a byte is what the
last part to write it has put there, and what no part has written is what it was, or zero if it is
new.

Everything else follows from this account. Reservations lie at multiples of eight behind everything
that is there, numbers are read back as they were written, until they are written over, and writes
to different bytes can change places.
-/

namespace FlatSyntax

namespace Builder

/-! ## Parts -/

/-- A part of what a call does to the buffer. -/
inductive Part where
  /-- Reserve zeros. -/
  | reserve (pos size : Nat)
  /-- Write bytes. -/
  | write (pos : Nat) (bytes : List UInt8)

namespace Part

/-- Where the part ends. -/
def stop : Part → Nat
  | reserve pos size => pos + size
  | write pos bytes => pos + bytes.length

/-- The part writes the byte at an index. -/
def Writes (i : Nat) : Part → Prop
  | reserve _ _ => False
  | write pos bytes => pos ≤ i ∧ i < pos + bytes.length

/-- The byte at an index after the part, from the byte there before it. -/
def byteAt (i : Nat) (old : UInt8) : Part → UInt8
  | reserve _ _ => old
  | write pos bytes => if pos ≤ i then bytes.getD (i - pos) old else old

/-- The part writes and reserves nothing. -/
def isWrite : Part → Bool
  | reserve _ _ => false
  | write _ _ => true

/-- Write a number of 32 bits. -/
def word (pos value : Nat) : Part := .write pos (encode 4 value)

/-- Write a pointer. -/
def pointer (pos target : Nat) : Part := .write pos (encode 8 (wordModulus + target))

/-- Write a source range. -/
def span (pos start stop : Nat) : List Part := [.word pos start, .word (pos + 4) stop]

/-- Write a union. -/
def union (pos : Nat) (tag : UInt8) (target : Nat) : List Part :=
  [.write pos [tag], .pointer (pos + 8) target]

/-- Write the header of a sequence. -/
def header (pos target count : Nat) : List Part :=
  [.pointer pos target, .word (pos + 8) count, .word (pos + 16) count]

/-- Write the header of a string. -/
def stringHeader (pos target count : Nat) : List Part :=
  [.pointer pos target, .word (pos + 8) count]

/-- Write unions one after the other. -/
def fill (run : Nat) (items : List (UInt8 × Nat)) (k : Nat) : List Part :=
  (items.zipIdx k).flatMap fun (item, index) => union (run + unionSize * index) item.1 item.2

/-- Reserve a run of unions, write its header and fill it. -/
def unions (run pos : Nat) (items : List (UInt8 × Nat)) : List Part :=
  .reserve run (unionSize * items.length) :: (header pos run items.length ++ fill run items 0)

/-- Reserve the bytes of a string and write them and their header. -/
def string (target pos : Nat) (bytes : List UInt8) : List Part :=
  if bytes.isEmpty then stringHeader pos 0 0
  else .reserve target bytes.length :: .write target bytes :: stringHeader pos target bytes.length

/-- Reserve a root record, and write the source range and the type of its program. -/
def rootRecord (root start stop : Nat) : List Part :=
  .reserve root rootSize :: (span root start stop ++ [.write (root + 125) [1]])

/-- Reserve a root record, and the statements of its program behind it. -/
def program (root start stop : Nat) (body : List (UInt8 × Nat)) : List Part :=
  rootRecord root start stop ++ unions (aligned (root + rootSize)) (root + 96) body

end Part

/-- Some part writes the byte at an index. -/
def Written (parts : List Part) (i : Nat) : Prop := ∃ part ∈ parts, part.Writes i

/-- A builder after parts: its buffer is as long as the part that goes furthest, or as it was if
none goes beyond it, and a byte is as the last part that writes it says, or as it was if none does.
Bytes past the end count as zeros. -/
structure Does (b b' : Builder) (parts : List Part) : Prop where
  length : b'.length = parts.foldl (fun length part => max length part.stop) b.length
  bytes : ∀ i, b'.buffer.getD i 0 =
    parts.foldl (fun byte part => part.byteAt i byte) (b.buffer.getD i 0)

/-- Whatever is reserved begins at a multiple of the alignment, behind the first `length` bytes and
behind all that was reserved or written earlier. -/
structure Placed (length : Nat) (parts : List Part) : Prop where
  multiple : ∀ pos size, Part.reserve pos size ∈ parts → alignment ∣ pos
  behind : ∀ pos size, Part.reserve pos size ∈ parts → length ≤ pos
  ordered : parts.Pairwise fun part later => ∀ pos size, later = .reserve pos size → part.stop ≤ pos

/-- The parts of a call. -/
def parts (b : Builder) : BuildCall → List Part
  | .alloc size => [.reserve (aligned b.length) size]
  | .node size start stop =>
    .reserve (aligned b.length) size :: Part.span (aligned b.length) start stop
  | .bytes pos bytes => [.write pos bytes]
  | .byte pos value => [.write pos [value]]
  | .word pos value => [.word pos value]
  | .long pos value => [.write pos (encode 8 value)]
  | .flag pos value => [.write pos [if value then 1 else 0]]
  | .span pos start stop => Part.span pos start stop
  | .pointer pos target => [.pointer pos target]
  | .union pos tag target => Part.union pos tag target
  | .header pos target count => Part.header pos target count
  | .sequence pos stride count =>
    .reserve (aligned b.length) (stride * count) :: Part.header pos (aligned b.length) count
  | .unions pos items => Part.unions (aligned b.length) pos items
  | .sourceString pos start stop => Part.stringHeader pos start (wordModulus + stop - start)
  | .rawString pos bytes => Part.string (aligned b.length) pos bytes
  | .string pos text => Part.string (aligned b.length) pos (Utf8.encode text)
  | .program start stop body => Part.program (aligned b.length) start stop body
  | .emptyRoot => Part.program (aligned b.length) 0 b.sourceLength []
  | .length => []

/-- The parts of calls that are made one after the other. -/
def history (b : Builder) : List BuildCall → List Part
  | [] => []
  | c :: rest => b.parts c ++ (b.call c).2.history rest

/-- The parts of finishing a buffer. -/
def trailer (b : Builder) : List Part :=
  .reserve (aligned b.length) trailerSize :: (b.root.map (Part.word (aligned b.length))).toList

end Builder

/-- The numbers that a call is given have their widths, and so has the size of what it reserves. -/
def BuildCall.Fits : BuildCall → Prop
  | .word _ value => value < wordModulus
  | .long _ value => value < longModulus
  | .span _ start stop | .sourceString _ start stop => start < wordModulus ∧ stop < wordModulus
  | .pointer _ target | .union _ _ target => target < wordModulus
  | .header _ target count => target < wordModulus ∧ count < wordModulus
  | .sequence _ stride count => stride * count < wordModulus
  | .unions _ items | .program _ _ items => Builder.unionSize * items.length < wordModulus
  | _ => True

/-- The call writes and reserves nothing. -/
def BuildCall.OnlyWrites : BuildCall → Bool
  | .bytes _ _ | .byte _ _ | .word _ _ | .long _ _ | .flag _ _ | .span _ _ _ | .pointer _ _
  | .union _ _ _ | .header _ _ _ | .sourceString _ _ _ => true
  | _ => false

namespace Builder

variable {b b' b'' : Builder} {parts later : List Part} {i : Nat}

/-! ## What parts do -/

theorem Part.byteAt_of_not_writes {part : Part} (h : ¬ part.Writes i) (old : UInt8) :
    part.byteAt i old = old := by
  cases part with
  | reserve pos size => rfl
  | write pos bytes =>
    simp only [Part.byteAt]
    split
    · rename_i hle
      have hlength : bytes.length ≤ i - pos := by
        by_contra hlt
        exact h ⟨hle, by omega⟩
      rw [List.getD_eq_getElem?_getD, List.getElem?_eq_none hlength]
      rfl
    · rfl

theorem byteAt_of_not_written (h : ¬ Written parts i) (old : UInt8) :
    parts.foldl (fun byte part => part.byteAt i byte) old = old := by
  induction parts with
  | nil => rfl
  | cons part rest ih =>
    have hpart : ¬ part.Writes i := fun hw => h ⟨part, List.mem_cons_self, hw⟩
    rw [List.foldl_cons, Part.byteAt_of_not_writes hpart]
    exact ih fun ⟨p, hp, hw⟩ => h ⟨p, List.mem_cons_of_mem part hp, hw⟩

theorem le_foldl_stop (parts : List Part) (length : Nat) :
    length ≤ parts.foldl (fun length part => max length part.stop) length := by
  induction parts generalizing length with
  | nil => exact Nat.le_refl _
  | cons part rest ih => exact (Nat.le_max_left _ _).trans (ih _)

theorem stop_le_foldl {part : Part} (h : part ∈ parts) (length : Nat) :
    part.stop ≤ parts.foldl (fun length part => max length part.stop) length := by
  induction parts generalizing length with
  | nil => cases h
  | cons first rest ih =>
    rcases List.mem_cons.mp h with rfl | h
    · exact (Nat.le_max_right _ _).trans (le_foldl_stop rest _)
    · exact ih h _

theorem getElem?_of_lt (h : i < b.length) : b.buffer[i]? = some (b.buffer.getD i 0) := by
  have hin : i < b.buffer.size := h
  rw [Array.getD_eq_getD_getElem?, Array.getElem?_eq_getElem hin]
  rfl

namespace Does

theorem refl (b : Builder) : b.Does b [] := ⟨rfl, fun _ => rfl⟩

theorem trans (h : b.Does b' parts) (h' : b'.Does b'' later) : b.Does b'' (parts ++ later) where
  length := by rw [List.foldl_append, ← h.length, h'.length]
  bytes i := by rw [List.foldl_append, ← h.bytes, h'.bytes]

theorem of_buffer (h : b.Does b' parts) (hbuffer : b''.buffer = b'.buffer) : b.Does b'' parts where
  length := by rw [← h.length, Builder.length, Builder.length, hbuffer]
  bytes i := by rw [← h.bytes, hbuffer]

theorem longer (h : b.Does b' parts) : b.length ≤ b'.length := by
  rw [h.length]
  exact le_foldl_stop parts b.length

theorem stop_le (h : b.Does b' parts) {part : Part} (hpart : part ∈ parts) :
    part.stop ≤ b'.length := by
  rw [h.length]
  exact stop_le_foldl hpart b.length

theorem getD_eq (h : b.Does b' parts) (hi : ¬ Written parts i) :
    b'.buffer.getD i 0 = b.buffer.getD i 0 := by
  rw [h.bytes, byteAt_of_not_written hi]

/-- Bytes that are there stay if they are not written. -/
theorem kept (h : b.Does b' parts) (hlt : i < b.length) (hi : ¬ Written parts i) :
    b'.buffer[i]? = b.buffer[i]? := by
  rw [getElem?_of_lt hlt, getElem?_of_lt (Nat.lt_of_lt_of_le hlt h.longer), h.getD_eq hi]

/-- New bytes are zero if they are not written. -/
theorem zero (h : b.Does b' parts) (hle : b.length ≤ i) (hlt : i < b'.length)
    (hi : ¬ Written parts i) : b'.buffer[i]? = some 0 := by
  rw [getElem?_of_lt hlt, h.getD_eq hi, getD_of_length_le hle]

/-- Bytes stay stored until they are written over. -/
theorem stored (h : b.Does b' parts) {pos : Nat} {bytes : List UInt8}
    (hbytes : Stored b.buffer pos bytes)
    (hi : ∀ i, (Part.write pos bytes).Writes i → ¬ Written parts i) : Stored b'.buffer pos bytes :=
  hbytes.congr fun i hle hlt => h.getD_eq (hi i ⟨hle, hlt⟩)

/-- The buffer is determined by the account of its length and its bytes. -/
theorem buffer_eq {c c' : Builder} (h : b.Does c parts) (h' : b.Does c' later)
    (hlength : parts.foldl (fun length part => max length part.stop) b.length =
      later.foldl (fun length part => max length part.stop) b.length)
    (hbytes : ∀ i, parts.foldl (fun byte part => part.byteAt i byte) (b.buffer.getD i 0) =
      later.foldl (fun byte part => part.byteAt i byte) (b.buffer.getD i 0)) :
    c.buffer = c'.buffer := by
  have hsize : c.length = c'.length := by rw [h.length, h'.length, hlength]
  refine Array.ext_getElem? fun i => ?_
  by_cases hi : i < c.length
  · rw [getElem?_of_lt hi, getElem?_of_lt (hsize ▸ hi), h.bytes, h'.bytes, hbytes]
  · have hout : c.buffer.size ≤ i := Nat.le_of_not_lt hi
    have hout' : c'.buffer.size ≤ i := hsize.symm.trans_le hout
    rw [Array.getElem?_eq_none hout, Array.getElem?_eq_none hout']

end Does

/-! ## What calls do -/

theorem alloc_fst (b : Builder) (size : Nat) : (b.alloc size).1 = aligned b.length := by
  change (extend b.buffer (aligned b.buffer.size)).size = _
  rw [size_extend]
  exact Nat.max_eq_right (le_aligned b.length)

theorem alloc_does (b : Builder) (size : Nat) :
    b.Does (b.alloc size).2 [.reserve (aligned b.length) size] where
  length := by
    have hreserves := b.alloc_reserves size
    have hlength := hreserves.length
    have hafter := hreserves.after
    rw [alloc_fst] at hlength hafter
    simp only [List.foldl_cons, List.foldl_nil, Part.stop]
    omega
  bytes := (b.alloc_reserves size).kept

theorem bytes_does (b : Builder) (pos : Nat) (bytes : List UInt8) :
    b.Does (b.bytes pos bytes) [.write pos bytes] where
  length := b.length_bytes pos bytes
  bytes i := by
    change _ = (Part.write pos bytes).byteAt i (b.buffer.getD i 0)
    by_cases hin : pos ≤ i ∧ i < pos + bytes.length
    · have hlt : i - pos < bytes.length := by omega
      have hstored := b.stored_bytes pos bytes (i - pos) bytes[i - pos]
        (List.getElem?_eq_getElem hlt)
      rw [Nat.add_sub_cancel' hin.1] at hstored
      rw [hstored, Part.byteAt, if_pos hin.1, List.getD_eq_getElem _ _ hlt]
    · have hnot : ¬ (Part.write pos bytes).Writes i := hin
      rw [Part.byteAt_of_not_writes hnot]
      exact (b.bytes_writes pos bytes).kept i (by omega)

theorem word_does (b : Builder) (pos value : Nat) : b.Does (b.word pos value) [.word pos value] :=
  b.bytes_does pos (encode 4 value)

theorem pointer_does (b : Builder) (pos target : Nat) :
    b.Does (b.pointer pos target) [.pointer pos target] :=
  b.bytes_does pos (encode 8 (wordModulus + target))

theorem span_does (b : Builder) (pos start stop : Nat) :
    b.Does (b.span pos start stop) (Part.span pos start stop) :=
  (b.word_does pos start).trans (word_does _ (pos + 4) stop)

theorem union_does (b : Builder) (pos : Nat) (tag : UInt8) (target : Nat) :
    b.Does (b.union pos tag target) (Part.union pos tag target) :=
  (b.bytes_does pos [tag]).trans (pointer_does _ (pos + 8) target)

theorem stringHeader_does (b : Builder) (pos target count : Nat) :
    b.Does ((b.pointer pos target).word (pos + 8) count) (Part.stringHeader pos target count) :=
  (b.pointer_does pos target).trans (word_does _ (pos + 8) count)

theorem header_does (b : Builder) (pos target count : Nat) :
    b.Does (b.header pos target count) (Part.header pos target count) :=
  (b.stringHeader_does pos target count).trans (word_does _ (pos + 16) count)

theorem fillFrom_does (b : Builder) (run k : Nat) (items : List (UInt8 × Nat)) :
    b.Does (b.fillFrom run k items) (Part.fill run items k) := by
  induction items generalizing b k with
  | nil => exact .refl b
  | cons item rest ih =>
    rw [fillFrom_cons, Part.fill, List.zipIdx_cons, List.flatMap_cons]
    exact (b.union_does _ item.1 item.2).trans (ih _ (k + 1))

theorem sequence_does (b : Builder) (pos : Nat) {stride count : Nat}
    (h : stride * count < wordModulus) :
    b.Does (b.sequence pos stride count).2
      (.reserve (aligned b.length) (stride * count) ::
        Part.header pos (aligned b.length) count) := by
  have halloc := b.alloc_does (stride * count)
  have hheader := (b.alloc (stride * count)).2.header_does pos (aligned b.length) count
  unfold sequence
  rw [Nat.mod_eq_of_lt h]
  simp only [alloc_fst]
  exact halloc.trans hheader

theorem unions_does (b : Builder) (pos : Nat) {items : List (UInt8 × Nat)}
    (h : unionSize * items.length < wordModulus) :
    b.Does (b.unions pos items) (Part.unions (aligned b.length) pos items) := by
  have hsequence := b.sequence_does pos h
  have hfill := (b.sequence pos unionSize items.length).2.fillFrom_does (aligned b.length) 0 items
  have hrun : (b.sequence pos unionSize items.length).1 = aligned b.length :=
    b.alloc_fst (unionSize * items.length % wordModulus)
  have hunions : b.unions pos items =
      (b.sequence pos unionSize items.length).2.fillFrom (aligned b.length) 0 items := by
    rw [← hrun]
    rfl
  rw [hunions]
  exact hsequence.trans hfill

theorem rawString_does (b : Builder) (pos : Nat) (bytes : List UInt8) :
    b.Does (b.rawString pos bytes) (Part.string (aligned b.length) pos bytes) := by
  unfold rawString Part.string
  split
  · exact b.stringHeader_does pos 0 0
  · simp only [alloc_fst]
    exact ((b.alloc_does bytes.length).trans (bytes_does _ _ bytes)).trans
      (stringHeader_does _ pos _ bytes.length)

theorem rootRecord_does (b : Builder) (start stop : Nat) :
    b.Does ((b.alloc rootSize).2.rootRecord (aligned b.length) start stop)
      (Part.rootRecord (aligned b.length) start stop) :=
  (b.alloc_does rootSize).trans ((span_does _ _ start stop).trans (bytes_does _ _ [1]))

/-- Nothing is written past the end of a root record, so its statements come right behind it. -/
theorem Part.foldl_stop_rootRecord {length root : Nat} (h : length ≤ root) (start stop : Nat) :
    (rootRecord root start stop).foldl (fun length part => max length part.stop) length =
      root + rootSize := by
  simp only [rootRecord, span, word, List.cons_append, List.nil_append, List.foldl_cons,
    List.foldl_nil, Part.stop, length_encode, List.length_singleton, rootSize]
  omega

theorem program_does (b : Builder) (start stop : Nat) {items : List (UInt8 × Nat)}
    (h : unionSize * items.length < wordModulus) :
    b.Does (b.program start stop items).2 (Part.program (aligned b.length) start stop items) := by
  have hrecord := b.rootRecord_does start stop
  have hunions := unions_does ((b.alloc rootSize).2.rootRecord (aligned b.length) start stop)
    (aligned b.length + 96) h
  rw [hrecord.length, Part.foldl_stop_rootRecord (le_aligned b.length)] at hunions
  rw [program_eq, alloc_fst]
  exact (hrecord.trans hunions).of_buffer rfl

/-- A call does its parts. -/
theorem call_does (b : Builder) {c : BuildCall} (h : c.Fits) :
    b.Does (b.call c).2 (b.parts c) := by
  cases c with
  | alloc size => exact b.alloc_does size
  | node size start stop =>
    have hspan := (b.alloc size).2.span_does (aligned b.length) start stop
    simp only [call, call.reserved, node, alloc_fst]
    exact (b.alloc_does size).trans hspan
  | bytes pos bytes => exact b.bytes_does pos bytes
  | byte pos value => exact b.bytes_does pos [value]
  | word pos value => exact b.word_does pos value
  | long pos value => exact b.bytes_does pos (encode 8 value)
  | flag pos value => exact b.bytes_does pos [if value then 1 else 0]
  | span pos start stop => exact b.span_does pos start stop
  | pointer pos target => exact b.pointer_does pos target
  | union pos tag target => exact b.union_does pos tag target
  | header pos target count => exact b.header_does pos target count
  | sequence pos stride count => exact b.sequence_does pos h
  | unions pos items => exact b.unions_does pos h
  | sourceString pos start stop => exact b.stringHeader_does pos start _
  | rawString pos bytes => exact b.rawString_does pos bytes
  | string pos text => exact b.rawString_does pos _
  | program start stop body => exact b.program_does start stop h
  | emptyRoot => exact b.program_does 0 b.sourceLength (by decide)
  | length => exact .refl b

/-- Calls do their parts, one after the other. -/
theorem callAll_does (b : Builder) {calls : List BuildCall} (h : ∀ c ∈ calls, c.Fits) :
    b.Does (b.callAll calls) (b.history calls) := by
  induction calls generalizing b with
  | nil => exact .refl b
  | cons c rest ih =>
    have hrest := ih (b.call c).2 fun other hother => h other (List.mem_cons_of_mem c hother)
    exact (b.call_does (h c List.mem_cons_self)).trans hrest

theorem finish_does (b : Builder) : b.Does { b with buffer := b.finish } b.trailer := by
  have halloc := b.alloc_does trailerSize
  cases hroot : b.root with
  | none =>
    have hfinish : b.finish = (b.alloc trailerSize).2.buffer := by
      simp only [finish, root_alloc, hroot]
    rw [trailer, hroot]
    exact halloc.of_buffer hfinish
  | some root =>
    have hfinish : b.finish = ((b.alloc trailerSize).2.word (aligned b.length) root).buffer := by
      simp only [finish, root_alloc, hroot, alloc_fst]
    rw [trailer, hroot]
    exact (halloc.trans (word_does _ (aligned b.length) root)).of_buffer hfinish

theorem size_finish (b : Builder) : b.finish.size = aligned b.length + trailerSize := by
  have hlength : b.finish.size = _ := b.finish_does.length
  have hle := le_aligned b.length
  rw [hlength, trailer]
  cases b.root <;>
    simp [Part.stop, Part.word, length_encode, trailerSize] <;> omega

theorem length_rawString {pos : Nat} (hpos : pos + 16 ≤ b.length) {bytes : List UInt8}
    (h : bytes ≠ []) : (b.rawString pos bytes).length = aligned b.length + bytes.length := by
  have hle := le_aligned b.length
  rw [(b.rawString_does pos bytes).length, Part.string, if_neg (by simpa using h)]
  simp only [Part.stringHeader, Part.pointer, Part.word, Part.stop, length_encode, List.foldl_cons,
    List.foldl_nil]
  omega

theorem ofSource_does (source : String) :
    Does { buffer := #[], source } (ofSource source)
      [.write 0 (Utf8.encode source), .reserve (aligned (Utf8.encode source).length) 0] := by
  have hlength : (ofSource source).length = aligned (Utf8.encode source).length := by
    change (extend (Utf8.encode source).toArray _).size = _
    rw [size_extend, List.size_toArray]
    exact Nat.max_eq_right (le_aligned _)
  have hempty : length { buffer := #[], source } = 0 := rfl
  constructor
  · have hle := le_aligned (Utf8.encode source).length
    simp only [hlength, hempty, List.foldl_cons, List.foldl_nil, Part.stop]
    omega
  · intro i
    change (extend (Utf8.encode source).toArray _).getD i 0 =
      if 0 ≤ i then (Utf8.encode source).getD (i - 0) 0 else 0
    rw [getD_extend, if_pos (Nat.zero_le i), Nat.sub_zero]
    simp

/-! ## Where things are reserved -/

section Placed

variable {length : Nat}

/-- Writing needs no place. -/
theorem Placed.of_writes (h : parts.all Part.isWrite = true) : Placed length parts := by
  have hno : ∀ pos size, Part.reserve pos size ∉ parts := by
    intro pos size hmem
    cases List.all_eq_true.mp h _ hmem
  constructor
  · exact fun pos size hmem => absurd hmem (hno pos size)
  · exact fun pos size hmem => absurd hmem (hno pos size)
  · refine List.pairwise_of_forall_mem_list fun _ _ part hpart pos size heq => ?_
    exact absurd (heq ▸ hpart) (hno pos size)

theorem Placed.append (h : Placed length parts)
    (h' : Placed (parts.foldl (fun length part => max length part.stop) length) later) :
    Placed length (parts ++ later) where
  multiple pos size hmem := by
    rcases List.mem_append.mp hmem with hmem | hmem
    · exact h.multiple pos size hmem
    · exact h'.multiple pos size hmem
  behind pos size hmem := by
    rcases List.mem_append.mp hmem with hmem | hmem
    · exact h.behind pos size hmem
    · exact (le_foldl_stop parts length).trans (h'.behind pos size hmem)
  ordered := by
    refine List.pairwise_append.mpr ⟨h.ordered, h'.ordered, ?_⟩
    rintro part hpart _ hmem pos size rfl
    exact (stop_le_foldl hpart length).trans (h'.behind pos size hmem)

/-- Zeros are reserved at the end, and the rest is written. -/
theorem Placed.reserve {size : Nat} (h : parts.all Part.isWrite = true) :
    Placed length (.reserve (aligned length) size :: parts) := by
  have hfirst : Placed length [.reserve (aligned length) size] := by
    constructor
    · intro pos _ hmem
      cases List.mem_singleton.mp hmem
      exact Nat.dvd_mul_left ..
    · intro pos _ hmem
      cases List.mem_singleton.mp hmem
      exact le_aligned length
    · exact List.pairwise_singleton ..
  exact hfirst.append (.of_writes h)

theorem Part.fill_isWrite (run : Nat) (items : List (UInt8 × Nat)) (k : Nat) :
    (fill run items k).all isWrite = true := by
  simp [fill, union, pointer, isWrite]

theorem Placed.unions (pos : Nat) (items : List (UInt8 × Nat)) :
    Placed length (Part.unions (aligned length) pos items) := by
  refine .reserve ?_
  rw [List.all_append, Part.fill_isWrite]
  rfl

theorem Placed.string (pos : Nat) (bytes : List UInt8) :
    Placed length (Part.string (aligned length) pos bytes) := by
  unfold Part.string
  split
  · exact .of_writes rfl
  · exact .reserve rfl

theorem Placed.program (start stop : Nat) (items : List (UInt8 × Nat)) :
    Placed length (Part.program (aligned length) start stop items) := by
  have hrecord : Placed length (Part.rootRecord (aligned length) start stop) := .reserve rfl
  refine hrecord.append ?_
  rw [Part.foldl_stop_rootRecord (le_aligned length)]
  exact .unions _ items

end Placed

/-- What a call reserves lies behind everything. -/
theorem parts_placed (b : Builder) (c : BuildCall) : Placed b.length (b.parts c) := by
  cases c with
  | alloc size => exact .reserve rfl
  | node size start stop => exact .reserve rfl
  | sequence pos stride count => exact .reserve rfl
  | unions pos items => exact .unions pos items
  | rawString pos bytes => exact .string pos bytes
  | string pos text => exact .string pos _
  | program start stop body => exact .program start stop body
  | emptyRoot => exact .program 0 b.sourceLength []
  | _ => exact .of_writes rfl

theorem history_placed (b : Builder) {calls : List BuildCall} (h : ∀ c ∈ calls, c.Fits) :
    Placed b.length (b.history calls) := by
  induction calls generalizing b with
  | nil => exact .of_writes rfl
  | cons c rest ih =>
    have hrest := ih (b.call c).2 fun other hother => h other (List.mem_cons_of_mem c hother)
    rw [(b.call_does (h c List.mem_cons_self)).length] at hrest
    exact (b.parts_placed c).append hrest

theorem trailer_placed (b : Builder) : Placed b.length b.trailer := by
  refine .reserve ?_
  cases b.root <;> rfl

/-- A call that answers with an offset has reserved something there. -/
theorem parts_of_offset {c : BuildCall} {pos : Nat} (h : (b.call c).1 = .offset pos) :
    ∃ size rest, b.parts c = .reserve pos size :: rest := by
  have hpos : ∀ size, BuildAnswer.offset (b.alloc size).1 = .offset pos →
      aligned b.length = pos := by
    intro size hsame
    rw [alloc_fst] at hsame
    cases hsame
    rfl
  cases c with
  | alloc size => exact hpos size h ▸ ⟨size, _, rfl⟩
  | node size start stop => exact hpos size h ▸ ⟨size, _, rfl⟩
  | sequence header stride count => exact hpos (stride * count % wordModulus) h ▸ ⟨_, _, rfl⟩
  | program start stop body => exact hpos rootSize h ▸ ⟨rootSize, _, rfl⟩
  | emptyRoot => exact hpos rootSize h ▸ ⟨rootSize, _, rfl⟩
  | _ => cases h

/-! ## Writes in another order -/

/-- Parts that write different bytes can change places. -/
theorem Does.buffer_comm {c c' : Builder} (h : b.Does c (parts ++ later))
    (h' : b.Does c' (later ++ parts)) (happart : ∀ i, Written parts i → ¬ Written later i) :
    c.buffer = c'.buffer := by
  refine h.buffer_eq h' ?_ fun i => ?_
  · have hcomm : RightCommutative fun length (part : Part) => max length part.stop :=
      ⟨fun n p q => Nat.max_right_comm n p.stop q.stop⟩
    exact List.perm_append_comm.foldl_eq b.length
  · rw [List.foldl_append, List.foldl_append]
    -- one of the two lists leaves the byte alone, and then the other is all that counts
    by_cases hwritten : Written parts i
    · have hlater := happart i hwritten
      rw [byteAt_of_not_written hlater, byteAt_of_not_written hlater]
    · rw [byteAt_of_not_written hwritten, byteAt_of_not_written hwritten]

section OnlyWrites

variable {c c' : BuildCall}

theorem eq_of_buffer (hbuffer : b.buffer = b'.buffer) (hsource : b.source = b'.source)
    (hroot : b.root = b'.root) : b = b' := by
  cases b
  cases b'
  simp only at hbuffer hsource hroot
  rw [hbuffer, hsource, hroot]

theorem call_source (b : Builder) (c : BuildCall) : (b.call c).2.source = b.source :=
  (b.call_keeps (Nat.zero_le _) fun pos _ => Nat.zero_le pos).source

theorem writesRoot_of_onlyWrites (hc : c.OnlyWrites = true) : c.WritesRoot = false := by
  cases c with
  | program start stop body => cases hc
  | emptyRoot => cases hc
  | _ => rfl

theorem parts_of_onlyWrites (hc : c.OnlyWrites = true) (b b' : Builder) :
    b.parts c = b'.parts c := by
  cases c <;> first | rfl | cases hc

/-- Two calls that write different bytes can change places. -/
theorem call_comm (b : Builder) (hfits : c.Fits) (hfits' : c'.Fits) (hc : c.OnlyWrites = true)
    (hc' : c'.OnlyWrites = true) (happart : ∀ i, Written (b.parts c) i → ¬ Written (b.parts c') i) :
    ((b.call c).2.call c').2 = ((b.call c').2.call c).2 := by
  have hfirst := (b.call_does hfits).trans ((b.call c).2.call_does hfits')
  have hsecond := (b.call_does hfits').trans ((b.call c').2.call_does hfits)
  rw [parts_of_onlyWrites hc' (b.call c).2 b] at hfirst
  rw [parts_of_onlyWrites hc (b.call c').2 b] at hsecond
  have hroot := writesRoot_of_onlyWrites hc
  have hroot' := writesRoot_of_onlyWrites hc'
  refine eq_of_buffer (hfirst.buffer_comm hsecond happart) ?_ ?_
  · simp only [call_source]
  · rw [root_call _ hroot', root_call _ hroot, root_call _ hroot, root_call _ hroot']

end OnlyWrites

/-! ## Reading back -/

/-- What one of several parts writes is there after them, if they write different bytes. -/
theorem Does.stored_write (h : b.Does b' parts) {pos : Nat} {bytes : List UInt8}
    (happart : parts.Pairwise fun part later => ∀ i, part.Writes i → ¬ later.Writes i)
    (hmem : Part.write pos bytes ∈ parts) : Stored b'.buffer pos bytes := by
  obtain ⟨before, after, rfl⟩ := List.append_of_mem hmem
  have hafter := (List.pairwise_cons.mp (List.pairwise_append.mp happart).2.1).1
  intro k byte hk
  obtain ⟨hlt, hbyte⟩ := List.getElem?_eq_some_iff.mp hk
  have hnot : ¬ Written after (pos + k) := fun ⟨later, hlater, hwrites⟩ =>
    hafter later hlater (pos + k) ⟨by omega, by omega⟩ hwrites
  rw [h.bytes, List.foldl_append, List.foldl_cons, byteAt_of_not_written hnot, Part.byteAt,
    if_pos (Nat.le_add_right pos k), Nat.add_sub_cancel_left, List.getD_eq_getElem _ _ hlt, hbyte]

theorem parts_apart {c : BuildCall} (hc : c.OnlyWrites = true) (b : Builder) :
    (b.parts c).Pairwise fun part later => ∀ i, part.Writes i → ¬ later.Writes i := by
  cases c with
  | span pos start stop =>
    refine List.pairwise_pair.mpr fun i hi => ?_
    simp only [Part.word, Part.Writes, length_encode] at hi ⊢
    omega
  | union pos tag target =>
    refine List.pairwise_pair.mpr fun i hi => ?_
    simp only [Part.pointer, Part.Writes, length_encode, List.length_singleton] at hi ⊢
    omega
  | sourceString pos start stop =>
    refine List.pairwise_pair.mpr fun i hi => ?_
    simp only [Part.pointer, Part.word, Part.Writes, length_encode] at hi ⊢
    omega
  | header pos target count =>
    refine List.pairwise_cons.mpr ⟨fun later hlater i hi => ?_,
      List.pairwise_pair.mpr fun i hi => ?_⟩
    · rcases List.mem_pair.mp hlater with rfl | rfl <;>
        simp only [Part.pointer, Part.word, Part.Writes, length_encode] at hi ⊢ <;> omega
    · simp only [Part.word, Part.Writes, length_encode] at hi ⊢
      omega
  | bytes _ _ | byte _ _ | word _ _ | long _ _ | flag _ _ | pointer _ _ =>
    exact List.pairwise_singleton ..
  | _ => cases hc

end Builder

/-- The document begins with the bytes of a builder. -/
structure Document.Begins (doc : Document) (b : Builder) : Prop where
  longer : b.length ≤ doc.size
  kept : ∀ i < b.length, doc.buffer.getD i 0 = b.buffer.getD i 0

/-- A document reads what the call has written where it has written it: the same bytes, number,
truth value or source range, the target of a pointer, the tag and the target of a union, and of a
header the target and the number of elements. The length of a string that ends before it starts has
wrapped around. -/
def BuildCall.ReadBack (doc : Document) : BuildCall → Prop
  | .bytes pos data => doc.bytes pos data.length = .ok data
  | .byte pos value => doc.byte pos = .ok value
  | .word pos value => doc.word pos = .ok value
  | .long pos value => doc.long pos = .ok value ∧ doc.double pos = .ok ⟨UInt64.ofNat value⟩
  | .flag pos value => doc.flag pos = .ok value
  | .span pos start stop => doc.span pos = .ok ⟨start, stop⟩
  | .pointer pos target => doc.word pos = .ok target ∧ doc.long pos = .ok (wordModulus + target)
  | .union pos tag target => doc.byte pos = .ok tag ∧ doc.word (pos + 8) = .ok target
  | .header pos target count =>
    doc.word pos = .ok target ∧ doc.word (pos + 8) = .ok count ∧ doc.word (pos + 16) = .ok count
  | .sourceString pos start stop =>
    doc.word pos = .ok start ∧
      doc.word (pos + 8) = .ok (if start ≤ stop then stop - start else wordModulus + stop - start)
  | _ => True

theorem Document.long_of_stored {doc : Document} {pos n : Nat}
    (h : Stored doc.buffer pos (Builder.encode 8 n)) (hle : pos + 8 ≤ doc.size)
    (hn : n < longModulus) : doc.long pos = .ok n := by
  have hbytes := bytes_of_stored h (by rw [Builder.length_encode]; exact hle)
  rw [Builder.length_encode] at hbytes
  unfold long
  rw [hbytes]
  change Except.ok (littleEndian (Builder.encode 8 n)) = _
  rw [Builder.littleEndian_encode, Nat.mod_eq_of_lt]
  exact hn

/-- What a call has written is read back while all of it is there. -/
theorem BuildCall.readBack_of_stored {doc : Document} {b : Builder} {c : BuildCall} (hfits : c.Fits)
    (h : ∀ pos bytes, Builder.Part.write pos bytes ∈ b.parts c →
      Stored doc.buffer pos bytes ∧ pos + bytes.length ≤ doc.size ∧
        pos + bytes.length < wordModulus) : c.ReadBack doc := by
  have hbyte : ∀ pos value, Builder.Part.write pos [value] ∈ b.parts c →
      doc.byte pos = .ok value := by
    intro pos value hmem
    obtain ⟨hstored, hle, _⟩ := h pos [value] hmem
    exact Document.byte_of_stored hstored hle
  have hword : ∀ pos n, Builder.Part.word pos n ∈ b.parts c → n < wordModulus →
      doc.word pos = .ok n := by
    intro pos n hmem hn
    obtain ⟨hstored, hle, _⟩ := h pos (Builder.encode 4 n) hmem
    rw [Builder.length_encode] at hle
    exact Document.word_of_stored hstored hle hn
  have hpointer : ∀ pos n, Builder.Part.pointer pos n ∈ b.parts c → n < wordModulus →
      doc.word pos = .ok n := by
    intro pos n hmem hn
    obtain ⟨hstored, hle, _⟩ := h pos (Builder.encode 8 (wordModulus + n)) hmem
    rw [Builder.length_encode] at hle
    exact Document.word_of_pointer hstored hle hn
  have hlong : ∀ pos n, Builder.Part.write pos (Builder.encode 8 n) ∈ b.parts c →
      n < longModulus → doc.long pos = .ok n := by
    intro pos n hmem hn
    obtain ⟨hstored, hle, _⟩ := h pos (Builder.encode 8 n) hmem
    rw [Builder.length_encode] at hle
    exact Document.long_of_stored hstored hle hn
  have hsecond : ∀ {p q : Builder.Part} {rest : List Builder.Part}, q ∈ p :: q :: rest :=
    List.mem_cons_of_mem _ List.mem_cons_self
  cases c with
  | bytes pos data =>
    obtain ⟨hstored, hle, _⟩ := h pos data List.mem_cons_self
    exact Document.bytes_of_stored hstored hle
  | byte pos value => exact hbyte pos value List.mem_cons_self
  | word pos value => exact hword pos value List.mem_cons_self hfits
  | long pos value =>
    have hread := hlong pos value List.mem_cons_self hfits
    refine ⟨hread, ?_⟩
    unfold Document.double
    rw [hread]
    rfl
  | flag pos value =>
    have hread := hbyte pos (if value then 1 else 0) List.mem_cons_self
    change doc.flag pos = .ok value
    unfold Document.flag
    rw [hread]
    cases value <;> rfl
  | span pos start stop =>
    have hstart := hword pos start List.mem_cons_self hfits.1
    have hstop := hword (pos + 4) stop hsecond hfits.2
    obtain ⟨_, _, hshort⟩ := h pos (Builder.encode 4 start) List.mem_cons_self
    rw [Builder.length_encode] at hshort
    change doc.span pos = .ok ⟨start, stop⟩
    unfold Document.span
    rw [Document.offset_of_lt hshort, hstart, hstop]
    rfl
  | pointer pos target =>
    refine ⟨hpointer pos target List.mem_cons_self hfits, hlong pos _ List.mem_cons_self ?_⟩
    have htarget : target < wordModulus := hfits
    unfold wordModulus longModulus at *
    omega
  | union pos tag target =>
    exact ⟨hbyte pos tag List.mem_cons_self, hpointer (pos + 8) target hsecond hfits⟩
  | header pos target count =>
    exact ⟨hpointer pos target List.mem_cons_self hfits.1, hword (pos + 8) count hsecond hfits.2,
      hword (pos + 16) count (List.mem_cons_of_mem _ hsecond) hfits.2⟩
  | sourceString pos start stop =>
    obtain ⟨hstart, hstop⟩ := hfits
    have hcount : (wordModulus + stop - start) % wordModulus =
        if start ≤ stop then stop - start else wordModulus + stop - start := by
      split
      · rename_i horder
        rw [Nat.add_sub_assoc horder, Nat.add_mod_left]
        exact Nat.mod_eq_of_lt (Nat.lt_of_le_of_lt (Nat.sub_le stop start) hstop)
      · exact Nat.mod_eq_of_lt (by omega)
    obtain ⟨hstored, hle, _⟩ := h (pos + 8) (Builder.encode 4 (wordModulus + stop - start)) hsecond
    rw [Builder.length_encode] at hle
    have hread := Document.word_of_encoded hstored hle
    rw [hcount] at hread
    exact ⟨hpointer pos start List.mem_cons_self hstart, hread⟩
  | _ => trivial

namespace Builder

/-! ## Any calls -/

variable {b : Builder} {calls : List BuildCall}

theorem callAll_append (b : Builder) (before after : List BuildCall) :
    b.callAll (before ++ after) = (b.callAll before).callAll after :=
  List.foldl_append

/-- What calls do to a builder that has bytes already. -/
structure Orderly (b : Builder) (calls : List BuildCall) : Prop where
  /-- Nothing is taken away. -/
  longer : b.length ≤ (b.callAll calls).length
  /-- Whatever is reserved lies at a multiple of eight, behind everything there is at that time. -/
  placed : Placed b.length (b.history calls)
  /-- What is reserved is there. -/
  reserved : ∀ pos size, Part.reserve pos size ∈ b.history calls →
    pos + size ≤ (b.callAll calls).length
  /-- What is not written stays. -/
  kept : ∀ i < b.length, ¬ Written (b.history calls) i →
    (b.callAll calls).buffer[i]? = b.buffer[i]?
  /-- What is new and not written is zero. -/
  zero : ∀ i, b.length ≤ i → i < (b.callAll calls).length → ¬ Written (b.history calls) i →
    (b.callAll calls).buffer[i]? = some 0
  /-- All in all, the buffer is what the parts of the calls make of it. -/
  does : b.Does (b.callAll calls) (b.history calls)

theorem callAll_orderly (b : Builder) (h : ∀ c ∈ calls, c.Fits) : b.Orderly calls := by
  have hdoes := b.callAll_does h
  exact {
    longer := hdoes.longer
    placed := b.history_placed h
    reserved := fun _ _ hmem => hdoes.stop_le hmem
    kept := fun _ hlt hi => hdoes.kept hlt hi
    zero := fun _ hle hlt hi => hdoes.zero hle hlt hi
    does := hdoes }

/-- What a call writes is read back from any document that begins with the buffer, also after more
calls that write other bytes. -/
theorem readBack_of_begins {doc : Document} {c : BuildCall} (hc : c.OnlyWrites = true)
    (hfits : c.Fits) (hcalls : ∀ c ∈ calls, c.Fits)
    (hshort : ((b.call c).2.callAll calls).length < wordModulus)
    (hbegins : doc.Begins ((b.call c).2.callAll calls))
    (happart : ∀ i, Written (b.parts c) i → ¬ Written ((b.call c).2.history calls) i) :
    c.ReadBack doc := by
  have hcall := b.call_does hfits
  have hrest := (b.call c).2.callAll_does hcalls
  refine BuildCall.readBack_of_stored (b := b) hfits fun pos bytes hmem => ?_
  have hstop : pos + bytes.length ≤ (b.call c).2.length := hcall.stop_le hmem
  have hlonger := hrest.longer
  have hsize := hbegins.longer
  have hstored := hrest.stored (hcall.stored_write (parts_apart hc b) hmem) fun i hi =>
    happart i ⟨_, hmem, hi⟩
  exact ⟨hstored.congr fun i _ hi => hbegins.kept i (by omega), by omega, by omega⟩

theorem begins_of_finish {doc : Document} (h : doc.buffer = b.finish) : doc.Begins b where
  longer := by
    have hlonger := b.finish_finishes.longer
    rw [← h] at hlonger
    exact (Nat.le_add_right _ _).trans hlonger
  kept i hi := by
    rw [h]
    exact b.finish_finishes.kept i hi

/-- The memory of a builder, from its start over calls to the finished buffer. -/
structure Disciplined (source : String) (calls : List BuildCall) : Prop where
  /-- At first there is the source, and zeros up to a multiple of eight. -/
  start : Does { buffer := #[], source } (ofSource source)
    [.write 0 (Utf8.encode source), .reserve (aligned (Utf8.encode source).length) 0]
  /-- One call or more of them, whatever came before. -/
  orderly : ∀ before middle after, calls = before ++ middle ++ after →
    ((ofSource source).callAll before).Orderly middle
  /-- An offset that a call answers is that of what it has reserved first. -/
  answers : ∀ before c after, calls = before ++ c :: after → ∀ pos,
    (((ofSource source).callAll before).call c).1 = .offset pos →
      ∃ size rest, ((ofSource source).callAll before).parts c = .reserve pos size :: rest
  /-- What a call has written is read back as long as nothing is written over it. -/
  readBack : ∀ before c after, calls = before ++ c :: after → c.OnlyWrites = true →
    (∀ i, Written (((ofSource source).callAll before).parts c) i →
      ¬ Written ((((ofSource source).callAll before).call c).2.history after) i) →
    ∀ doc : Document, doc.Begins ((ofSource source).callAll calls) → c.ReadBack doc
  /-- Two calls that write different bytes can change places. -/
  commutes : ∀ before c c' after, calls = before ++ c :: c' :: after → c.OnlyWrites = true →
    c'.OnlyWrites = true →
    (∀ i, Written (((ofSource source).callAll before).parts c) i →
      ¬ Written (((ofSource source).callAll before).parts c') i) →
    (ofSource source).callAll (before ++ c' :: c :: after) = (ofSource source).callAll calls
  /-- Finishing reserves and writes the trailer in the same way. -/
  finish : ∀ b, b = (ofSource source).callAll calls →
    Placed b.length b.trailer ∧ b.Does { b with buffer := b.finish } b.trailer ∧
      ∀ doc : Document, doc.buffer = b.finish → doc.Begins b

/-- Calls to a builder keep to its memory, as long as the buffer has room for them. -/
theorem callAll_disciplined (source : String) {calls : List BuildCall}
    (hfits : ∀ c ∈ calls, c.Fits)
    (hshort : ((ofSource source).callAll calls).length < wordModulus) :
    Disciplined source calls where
  start := ofSource_does source
  orderly before middle after hcalls :=
    callAll_orderly _ fun c hc => hfits c (by simp [hcalls, hc])
  answers before c after hcalls pos h := parts_of_offset h
  readBack before c after hcalls hc happart doc hbegins := by
    subst hcalls
    rw [callAll_append] at hshort hbegins
    have hafter : ∀ other ∈ after, other.Fits := fun other hother => hfits other (by simp [hother])
    exact readBack_of_begins hc (hfits c (by simp)) hafter hshort hbegins happart
  commutes before c c' after hcalls hc hc' happart := by
    subst hcalls
    have hswap := call_comm ((ofSource source).callAll before) (hfits c (by simp))
      (hfits c' (by simp)) hc hc' happart
    rw [callAll_append, callAll_append]
    exact congrArg (fun b => b.callAll after) hswap.symm
  finish b _ := ⟨b.trailer_placed, b.finish_does, fun _ => begins_of_finish⟩

/-- A node, a sequence whose header lies past the end of the buffer, a text, a program, two numbers
that are written over parts of them, and a string that ends before it starts. -/
theorem callAll_disciplined_mixed :
    Disciplined "é" [.node 24 0 2, .sequence 61 3 5, .string 8 "€", .program 0 2 [(3, 8)],
      .long 16 18446744073709551615, .flag 33 true, .sourceString 40 2 0] :=
  callAll_disciplined "é" (by simp [BuildCall.Fits, wordModulus, longModulus, unionSize])
    (by decide +kernel)

end Builder

end FlatSyntax
