import Mathlib
import FlatSyntax.Builder
import FlatSyntax.Document.Basic
import FlatSyntax.Proofs.Bytes

/-!
# What a builder writes

Every call to a builder reserves zeros at the end of the buffer or writes bytes to a range of it,
and leaves the other bytes alone. Bytes past the end count as zeros here, so reserving changes none.
-/

namespace FlatSyntax

/-! ## Numbers in bytes -/

namespace Builder

theorem length_encode (width n : Nat) : (encode width n).length = width := by
  induction width generalizing n with
  | zero => rfl
  | succ width ih => simp [encode, ih]

theorem littleEndian_encode (width n : Nat) : littleEndian (encode width n) = n % 256 ^ width := by
  induction width generalizing n with
  | zero => simp [encode, littleEndian, Nat.mod_one]
  | succ width ih =>
    have hbyte : (UInt8.ofNat n).toNat = n % 256 := UInt8.toNat_ofNat' ..
    rw [encode, littleEndian, ih, hbyte, pow_succ', Nat.mod_mul]

theorem encode_add (width width' n : Nat) :
    encode (width + width') n = encode width n ++ encode width' (n / 256 ^ width) := by
  induction width generalizing n with
  | zero => simp [encode]
  | succ width ih =>
    rw [Nat.succ_add_eq_add_succ, Nat.add_succ, encode, encode, ih, Nat.div_div_eq_div_mul,
      pow_succ', List.cons_append]

end Builder

/-! ## Bytes of a buffer -/

/-- The bytes are in the buffer from an offset on. -/
def Stored (buffer : Array UInt8) (pos : Nat) (bytes : List UInt8) : Prop :=
  ∀ k byte, bytes[k]? = some byte → buffer.getD (pos + k) 0 = byte

section Stored

variable {buffer buffer' : Array UInt8} {pos : Nat} {bytes bytes' : List UInt8}

theorem Stored.congr (h : Stored buffer pos bytes)
    (heq : ∀ i, pos ≤ i → i < pos + bytes.length → buffer'.getD i 0 = buffer.getD i 0) :
    Stored buffer' pos bytes := by
  intro k byte hk
  have hlt := (List.getElem?_eq_some_iff.mp hk).1
  rw [heq (pos + k) (by omega) (by omega)]
  exact h k byte hk

theorem Stored.front (h : Stored buffer pos (bytes ++ bytes')) : Stored buffer pos bytes := by
  intro k byte hk
  have hlt := (List.getElem?_eq_some_iff.mp hk).1
  exact h k byte (by rw [List.getElem?_append_left hlt, hk])

theorem Stored.zeros {count : Nat} (h : ∀ i, pos ≤ i → i < pos + count → buffer.getD i 0 = 0) :
    Stored buffer pos (List.replicate count 0) := by
  intro k byte hk
  obtain ⟨hlt, hbyte⟩ := List.getElem?_eq_some_iff.mp hk
  rw [List.length_replicate] at hlt
  rw [List.getElem_replicate] at hbyte
  rw [h (pos + k) (by omega) (by omega), hbyte]

/-- A part of a range of zeros. -/
theorem Stored.part {count pos' count' : Nat} (h : Stored buffer pos (List.replicate count 0))
    (hstart : pos ≤ pos') (hstop : pos' + count' ≤ pos + count) :
    Stored buffer pos' (List.replicate count' 0) := by
  refine .zeros fun i _ _ => ?_
  have hzero : (List.replicate count (0 : UInt8))[i - pos]? = some 0 :=
    List.getElem?_replicate_of_lt (by omega)
  have hbyte := h (i - pos) 0 hzero
  rwa [Nat.add_sub_cancel' (by omega)] at hbyte

end Stored

namespace Document

variable {doc : Document} {pos n : Nat}

theorem bytes_of_stored {bytes : List UInt8} (h : Stored doc.buffer pos bytes)
    (hle : pos + bytes.length ≤ doc.size) : doc.bytes pos bytes.length = .ok bytes := by
  rw [bytes_of_le hle]
  refine congrArg Except.ok (List.ext_getElem? fun k => ?_)
  rw [List.getElem?_take, List.getElem?_drop]
  split
  · rename_i hk
    have hin : pos + k < doc.buffer.size := by
      unfold size at hle
      omega
    have hbyte := h k bytes[k] (List.getElem?_eq_getElem hk)
    rw [Array.getD_eq_getD_getElem?, Array.getElem?_eq_getElem hin] at hbyte
    rw [List.getElem?_eq_getElem hk, Array.getElem?_toList, Array.getElem?_eq_getElem hin]
    exact congrArg some hbyte
  · rename_i hk
    exact (List.getElem?_eq_none (by omega)).symm

theorem byte_of_stored {byte : UInt8} (h : Stored doc.buffer pos [byte])
    (hle : pos + 1 ≤ doc.size) : doc.byte pos = .ok byte := by
  have hbytes : doc.bytes pos 1 = .ok [byte] := bytes_of_stored h hle
  unfold Document.byte
  rw [hbytes]
  rfl

theorem word_of_bytes {bytes : List UInt8} (h : Stored doc.buffer pos bytes)
    (hlength : bytes.length = 4) (hle : pos + 4 ≤ doc.size) :
    doc.word pos = .ok (littleEndian bytes) := by
  have hbytes := bytes_of_stored h (by omega)
  rw [hlength] at hbytes
  unfold word
  rw [hbytes]
  rfl

theorem word_of_encoded (h : Stored doc.buffer pos (Builder.encode 4 n))
    (hle : pos + 4 ≤ doc.size) : doc.word pos = .ok (n % wordModulus) := by
  rw [word_of_bytes h (Builder.length_encode 4 n) hle, Builder.littleEndian_encode]
  rfl

theorem word_of_stored (h : Stored doc.buffer pos (Builder.encode 4 n)) (hle : pos + 4 ≤ doc.size)
    (hn : n < wordModulus) : doc.word pos = .ok n := by
  rw [word_of_encoded h hle, Nat.mod_eq_of_lt hn]

/-- The lower half of a pointer is the offset it points to. -/
theorem word_of_pointer (h : Stored doc.buffer pos (Builder.encode 8 (wordModulus + n)))
    (hle : pos + 8 ≤ doc.size) (hn : n < wordModulus) : doc.word pos = .ok n := by
  have hlower : Stored doc.buffer pos (Builder.encode 4 (wordModulus + n)) := by
    rw [Builder.encode_add 4 4] at h
    exact h.front
  rw [word_of_encoded hlower (by omega), Nat.add_mod_left, Nat.mod_eq_of_lt hn]

/-- The upper half of a pointer is never zero. -/
theorem long_of_pointer (h : Stored doc.buffer pos (Builder.encode 8 (wordModulus + n)))
    (hle : pos + 8 ≤ doc.size) (hn : n < wordModulus) : doc.long pos = .ok (wordModulus + n) := by
  have hbytes := bytes_of_stored h (by rw [Builder.length_encode]; exact hle)
  rw [Builder.length_encode] at hbytes
  unfold long
  rw [hbytes]
  change Except.ok (littleEndian (Builder.encode 8 (wordModulus + n))) = _
  rw [Builder.littleEndian_encode, Nat.mod_eq_of_lt]
  unfold wordModulus at *
  omega

theorem littleEndian_zeros (count : Nat) : littleEndian (List.replicate count 0) = 0 := by
  induction count with
  | zero => rfl
  | succ count ih => simp [List.replicate_succ, littleEndian, ih]

theorem word_of_zeros (h : Stored doc.buffer pos (List.replicate 4 0)) (hle : pos + 4 ≤ doc.size) :
    doc.word pos = .ok 0 := by
  rw [word_of_bytes h List.length_replicate hle, littleEndian_zeros]

theorem long_of_zeros (h : Stored doc.buffer pos (List.replicate 8 0)) (hle : pos + 8 ≤ doc.size) :
    doc.long pos = .ok 0 := by
  have hbytes : doc.bytes pos 8 = .ok (List.replicate 8 0) := bytes_of_stored h hle
  unfold long
  rw [hbytes]
  exact congrArg Except.ok (littleEndian_zeros 8)

end Document

/-! ## Reserving and writing -/

/-- The call writes a root record. -/
def BuildCall.WritesRoot : BuildCall → Bool
  | .program _ _ _ | .emptyRoot => true
  | _ => false

namespace Builder

variable {b b' b'' : Builder} {pos start stop : Nat}

theorem size_extend (buffer : Array UInt8) (length : Nat) :
    (extend buffer length).size = max buffer.size length := by
  simp only [extend, Array.size_append, Array.size_replicate]
  omega

theorem getD_extend (buffer : Array UInt8) (length i : Nat) :
    (extend buffer length).getD i 0 = buffer.getD i 0 := by
  simp only [extend, Array.getD_eq_getD_getElem?, Array.getElem?_append]
  split
  · rfl
  · rename_i hi
    rw [Array.getElem?_replicate, Array.getElem?_eq_none (by omega)]
    split <;> rfl

theorem size_overlay (buffer : Array UInt8) (pos : Nat) (bytes : List UInt8) :
    (overlay buffer pos bytes).size = buffer.size := by
  induction bytes generalizing buffer pos with
  | nil => rfl
  | cons byte rest ih => rw [overlay, ih, Array.size_setIfInBounds]

theorem getD_overlay_of_outside {buffer : Array UInt8} {bytes : List UInt8} {i : Nat}
    (h : i < pos ∨ pos + bytes.length ≤ i) :
    (overlay buffer pos bytes).getD i 0 = buffer.getD i 0 := by
  induction bytes generalizing buffer pos with
  | nil => rfl
  | cons byte rest ih =>
    rw [List.length_cons] at h
    rw [overlay, ih (by omega), Array.getD_eq_getD_getElem?, Array.getD_eq_getD_getElem?,
      Array.getElem?_setIfInBounds_ne (by omega)]

theorem stored_overlay {buffer : Array UInt8} {bytes : List UInt8}
    (h : pos + bytes.length ≤ buffer.size) : Stored (overlay buffer pos bytes) pos bytes := by
  induction bytes generalizing buffer pos with
  | nil =>
    intro k byte hk
    simp at hk
  | cons first rest ih =>
    rw [List.length_cons] at h
    intro k byte hk
    rw [overlay]
    cases k with
    | zero =>
      have hfirst : first = byte := by simpa using hk
      change (overlay (buffer.setIfInBounds pos first) (pos + 1) rest).getD pos 0 = byte
      rw [getD_overlay_of_outside (.inl (by omega)), Array.getD_eq_getD_getElem?,
        Array.getElem?_setIfInBounds_self_of_lt (by omega)]
      exact hfirst
    | succ k =>
      have hsize : pos + 1 + rest.length ≤ (buffer.setIfInBounds pos first).size := by
        rw [Array.size_setIfInBounds]
        omega
      rw [← ih hsize k byte hk]
      congr 1
      omega

/-- A builder after bytes from `start` up to `stop` were written and nothing else, in a buffer that
reaches as far. -/
structure Writes (b b' : Builder) (start stop : Nat) : Prop where
  root : b'.root = b.root
  source : b'.source = b.source
  longer : b.length ≤ b'.length
  reaches : stop ≤ b'.length
  kept : ∀ i, i < start ∨ stop ≤ i → b'.buffer.getD i 0 = b.buffer.getD i 0

theorem Writes.trans (h : b.Writes b' start stop) {start' stop' : Nat}
    (h' : b'.Writes b'' start' stop') (hstart : start ≤ start') (hstop : stop ≤ stop') :
    b.Writes b'' start stop' where
  root := h'.root.trans h.root
  source := h'.source.trans h.source
  longer := h.longer.trans h'.longer
  reaches := h'.reaches
  kept i hi := by
    rw [h'.kept i (by omega), h.kept i (by omega)]

theorem Writes.stored (h : b.Writes b' start stop) {bytes : List UInt8}
    (hbytes : Stored b.buffer pos bytes) (hapart : pos + bytes.length ≤ start ∨ stop ≤ pos) :
    Stored b'.buffer pos bytes :=
  hbytes.congr fun i _ _ => h.kept i (by omega)

theorem length_bytes (b : Builder) (pos : Nat) (bytes : List UInt8) :
    (b.bytes pos bytes).length = max b.length (pos + bytes.length) := by
  unfold length Builder.bytes
  rw [size_overlay, size_extend]

theorem bytes_writes (b : Builder) (pos : Nat) (bytes : List UInt8) :
    b.Writes (b.bytes pos bytes) pos (pos + bytes.length) where
  root := rfl
  source := rfl
  longer := by
    rw [length_bytes]
    exact Nat.le_max_left ..
  reaches := by
    rw [length_bytes]
    exact Nat.le_max_right ..
  kept i hi := by
    unfold Builder.bytes
    rw [getD_overlay_of_outside hi, getD_extend]

theorem stored_bytes (b : Builder) (pos : Nat) (bytes : List UInt8) :
    Stored (b.bytes pos bytes).buffer pos bytes := by
  refine stored_overlay ?_
  rw [size_extend]
  exact Nat.le_max_right ..

theorem word_writes (b : Builder) (pos value : Nat) :
    b.Writes (b.word pos value) pos (pos + 4) := by
  have hwrites := b.bytes_writes pos (encode 4 value)
  rwa [length_encode] at hwrites

theorem pointer_writes (b : Builder) (pos target : Nat) :
    b.Writes (b.pointer pos target) pos (pos + 8) := by
  have hwrites := b.bytes_writes pos (encode 8 (wordModulus + target))
  rwa [length_encode] at hwrites

theorem span_writes (b : Builder) (pos start stop : Nat) :
    b.Writes (b.span pos start stop) pos (pos + 8) :=
  (b.word_writes pos start).trans (word_writes _ (pos + 4) stop) (by omega) (by omega)

theorem union_writes (b : Builder) (pos : Nat) (tag : UInt8) (target : Nat) :
    b.Writes (b.union pos tag target) pos (pos + 16) :=
  (b.bytes_writes pos [tag]).trans (pointer_writes _ (pos + 8) target) (by omega)
    (by rw [List.length_singleton]; omega)

theorem header_writes (b : Builder) (pos target count : Nat) :
    b.Writes (b.header pos target count) pos (pos + 20) :=
  ((b.pointer_writes pos target).trans (word_writes _ (pos + 8) count) (by omega) (by omega)).trans
    (word_writes _ (pos + 16) count) (by omega) (by omega)

theorem le_aligned (length : Nat) : length ≤ aligned length := by
  unfold aligned alignment
  omega

/-- Reserving moves to the next multiple of the alignment and changes no byte. -/
structure Reserves (b : Builder) (size : Nat) (r : Nat × Builder) : Prop where
  root : r.2.root = b.root
  source : r.2.source = b.source
  after : b.length ≤ r.1
  length : r.2.length = r.1 + size
  kept : ∀ i, r.2.buffer.getD i 0 = b.buffer.getD i 0

theorem alloc_reserves (b : Builder) (size : Nat) : b.Reserves size (b.alloc size) := by
  have hpad : b.pad.length = aligned b.length := by
    have hle := le_aligned b.buffer.size
    unfold length pad
    rw [size_extend]
    exact Nat.max_eq_right hle
  constructor
  · rfl
  · rfl
  · change b.length ≤ b.pad.length
    rw [hpad]
    exact le_aligned b.length
  · change (extend b.pad.buffer (b.pad.length + size)).size = b.pad.length + size
    rw [size_extend]
    exact Nat.max_eq_right (Nat.le_add_right ..)
  · intro i
    change (extend (extend b.buffer _) _).getD i 0 = _
    rw [getD_extend, getD_extend]

theorem getD_of_length_le {i : Nat} (h : b.length ≤ i) : b.buffer.getD i 0 = 0 := by
  rw [Array.getD_eq_getD_getElem?, Array.getElem?_eq_none h]
  rfl

/-! ## Runs of unions -/

/-- The unions are in the buffer, one after the other. -/
def StoresUnions (buffer : Array UInt8) (run : Nat) (items : List (UInt8 × Nat)) : Prop :=
  ∀ i item, items[i]? = some item → Stored buffer (run + unionSize * i) [item.1] ∧
    Stored buffer (run + unionSize * i + 8) (encode 8 (wordModulus + item.2))

theorem stored_union (b : Builder) (pos : Nat) (tag : UInt8) (target : Nat) :
    Stored (b.union pos tag target).buffer pos [tag] ∧
      Stored (b.union pos tag target).buffer (pos + 8) (encode 8 (wordModulus + target)) := by
  have hpointer := pointer_writes (b.byte pos tag) (pos + 8) target
  refine ⟨hpointer.stored (b.stored_bytes pos [tag]) (.inl ?_), stored_bytes _ (pos + 8) _⟩
  rw [List.length_singleton]
  omega

theorem nth_union_writes (b : Builder) (run k : Nat) (item : UInt8 × Nat) :
    b.Writes (b.union (run + unionSize * k) item.1 item.2) (run + unionSize * k)
      (run + unionSize * (k + 1)) :=
  b.union_writes (run + unionSize * k) item.1 item.2

/-- Writes the unions from an index on. -/
def fillFrom (b : Builder) (run k : Nat) (items : List (UInt8 × Nat)) : Builder :=
  (items.zipIdx k).foldl
    (fun b (item, index) => b.union (run + unionSize * index) item.1 item.2) b

theorem fillFrom_cons (b : Builder) (run k : Nat) (item : UInt8 × Nat)
    (rest : List (UInt8 × Nat)) :
    b.fillFrom run k (item :: rest) =
      (b.union (run + unionSize * k) item.1 item.2).fillFrom run (k + 1) rest := by
  simp only [fillFrom, List.zipIdx_cons, List.foldl_cons]

theorem fillFrom_writes (b : Builder) {run k : Nat} (h : run + unionSize * k ≤ b.length)
    (items : List (UInt8 × Nat)) :
    b.Writes (b.fillFrom run k items) (run + unionSize * k)
      (run + unionSize * (k + items.length)) := by
  induction items generalizing b k with
  | nil => exact ⟨rfl, rfl, Nat.le_refl _, h, fun _ _ => rfl⟩
  | cons item rest ih =>
    have hfirst := b.nth_union_writes run k item
    have hrest := ih _ hfirst.reaches
    have hstop : k + 1 + rest.length = k + (rest.length + 1) := by omega
    rw [hstop] at hrest
    rw [fillFrom_cons, List.length_cons]
    refine hfirst.trans hrest ?_ ?_ <;> unfold unionSize <;> omega

theorem stored_fillFrom (b : Builder) {run k : Nat} (h : run + unionSize * k ≤ b.length)
    {items : List (UInt8 × Nat)} {i : Nat} {item : UInt8 × Nat} (hi : items[i]? = some item) :
    Stored (b.fillFrom run k items).buffer (run + unionSize * (k + i)) [item.1] ∧
      Stored (b.fillFrom run k items).buffer (run + unionSize * (k + i) + 8)
        (encode 8 (wordModulus + item.2)) := by
  induction items generalizing b k i with
  | nil => simp at hi
  | cons first rest ih =>
    have hfirst := b.nth_union_writes run k first
    have hrest := fillFrom_writes _ hfirst.reaches rest
    rw [fillFrom_cons]
    cases i with
    | zero =>
      obtain rfl : first = item := by simpa using hi
      obtain ⟨htag, hpointer⟩ := b.stored_union (run + unionSize * k) first.1 first.2
      rw [Nat.add_zero k]
      refine ⟨hrest.stored htag (.inl ?_), hrest.stored hpointer (.inl ?_)⟩
      · rw [List.length_singleton]
        unfold unionSize
        omega
      · rw [length_encode]
        unfold unionSize
        omega
    | succ i =>
      have hindex : k + (i + 1) = k + 1 + i := by omega
      rw [hindex]
      exact ih _ hfirst.reaches hi

/-! ## Programs -/

/-- A root record with a program, as a buffer has it, and the run of its statements. -/
structure HasProgram (buffer : Array UInt8) (root run start stop : Nat)
    (items : List (UInt8 × Nat)) : Prop where
  fits : root + 280 ≤ buffer.size
  runFits : run + unionSize * items.length ≤ buffer.size
  spanStart : Stored buffer root (encode 4 start)
  spanStop : Stored buffer (root + 4) (encode 4 stop)
  hashbang : Stored buffer (root + 56) (List.replicate 8 0)
  body : Stored buffer (root + 96) (encode 8 (wordModulus + run))
  bodyCount : Stored buffer (root + 104) (encode 4 items.length)
  sourceType : Stored buffer (root + 125) [1]
  comments : Stored buffer (root + 128) (List.replicate 24 0)
  errors : Stored buffer (root + 256) (List.replicate 24 0)
  statements : StoresUnions buffer run items

section HasProgram

variable {buffer buffer' : Array UInt8} {root run start stop : Nat} {items : List (UInt8 × Nat)}

/-- What is added behind a program leaves it as it is. -/
theorem HasProgram.mono (h : HasProgram buffer root run start stop items)
    (hsize : buffer.size ≤ buffer'.size)
    (hkept : ∀ i < buffer.size, buffer'.getD i 0 = buffer.getD i 0) :
    HasProgram buffer' root run start stop items := by
  have hfits := h.fits
  have hrun := h.runFits
  have hstored : ∀ {pos : Nat} {bytes : List UInt8}, Stored buffer pos bytes →
      pos + bytes.length ≤ buffer.size → Stored buffer' pos bytes :=
    fun hbytes hle => hbytes.congr fun i _ hi => hkept i (by omega)
  constructor
  · omega
  · omega
  · exact hstored h.spanStart (by rw [length_encode]; omega)
  · exact hstored h.spanStop (by rw [length_encode]; omega)
  · exact hstored h.hashbang (by rw [List.length_replicate]; omega)
  · exact hstored h.body (by rw [length_encode]; omega)
  · exact hstored h.bodyCount (by rw [length_encode]; omega)
  · exact hstored h.sourceType (by rw [List.length_singleton]; omega)
  · exact hstored h.comments (by rw [List.length_replicate]; omega)
  · exact hstored h.errors (by rw [List.length_replicate]; omega)
  · intro i item hi
    have hlt := (List.getElem?_eq_some_iff.mp hi).1
    obtain ⟨htag, hpointer⟩ := h.statements i item hi
    unfold unionSize at *
    refine ⟨hstored htag ?_, hstored hpointer ?_⟩
    · rw [List.length_singleton]
      omega
    · rw [length_encode]
      omega

end HasProgram

/-- A pointer and the number after it. -/
theorem stored_pointer_word (b : Builder) (pos target n : Nat) :
    Stored ((b.pointer pos target).word (pos + 8) n).buffer pos
        (encode 8 (wordModulus + target)) ∧
      Stored ((b.pointer pos target).word (pos + 8) n).buffer (pos + 8) (encode 4 n) := by
  have hword := word_writes (b.pointer pos target) (pos + 8) n
  have hwidth := length_encode 8 (wordModulus + target)
  exact ⟨hword.stored (stored_bytes b pos _) (.inl (by omega)), stored_bytes _ (pos + 8) _⟩

theorem stored_header (b : Builder) (pos target count : Nat) :
    Stored (b.header pos target count).buffer pos (encode 8 (wordModulus + target)) ∧
      Stored (b.header pos target count).buffer (pos + 8) (encode 4 count) := by
  obtain ⟨hpointer, hcount⟩ := b.stored_pointer_word pos target count
  have hcapacity := word_writes ((b.pointer pos target).word (pos + 8) count) (pos + 16) count
  have hwidth := length_encode 8 (wordModulus + target)
  have hwidth' := length_encode 4 count
  exact ⟨hcapacity.stored hpointer (.inl (by omega)), hcapacity.stored hcount (.inl (by omega))⟩

/-- A sequence of unions behind everything else, with its header somewhere before. -/
structure AddsUnions (b b' : Builder) (pos run : Nat) (items : List (UInt8 × Nat)) : Prop where
  after : b.length ≤ run
  runFits : run + unionSize * items.length ≤ b'.length
  kept : ∀ i < run, i < pos ∨ pos + 20 ≤ i → b'.buffer.getD i 0 = b.buffer.getD i 0
  pointer : Stored b'.buffer pos (encode 8 (wordModulus + run))
  count : Stored b'.buffer (pos + 8) (encode 4 items.length)
  statements : StoresUnions b'.buffer run items

theorem unions_eq (b : Builder) (pos : Nat) (items : List (UInt8 × Nat)) :
    b.unions pos items =
      ((b.alloc (unionSize * items.length % wordModulus)).2.header pos
        (b.alloc (unionSize * items.length % wordModulus)).1 items.length).fillFrom
          (b.alloc (unionSize * items.length % wordModulus)).1 0 items := rfl

theorem unions_adds (b : Builder) {pos : Nat} (h : pos + 20 ≤ b.length)
    (items : List (UInt8 × Nat)) : ∃ run, b.AddsUnions (b.unions pos items) pos run items := by
  have hreserves := b.alloc_reserves (unionSize * items.length % wordModulus)
  rw [unions_eq]
  generalize b.alloc (unionSize * items.length % wordModulus) = r at hreserves ⊢
  obtain ⟨run, b₁⟩ := r
  have hafter : b.length ≤ run := hreserves.after
  have hlength : b₁.length = run + unionSize * items.length % wordModulus := hreserves.length
  have hheader := b₁.header_writes pos run items.length
  obtain ⟨hpointer, hcount⟩ := b₁.stored_header pos run items.length
  have hrun : run + unionSize * 0 ≤ (b₁.header pos run items.length).length := by
    have hlonger := hheader.longer
    omega
  have hfill := fillFrom_writes (b₁.header pos run items.length) hrun items
  have hwidth := length_encode 8 (wordModulus + run)
  have hwidth' := length_encode 4 items.length
  refine ⟨run, hafter, ?_, fun i hi hapart => ?_, ?_, ?_, fun i item hi => ?_⟩
  · have hreaches := hfill.reaches
    rwa [Nat.zero_add] at hreaches
  · calc ((b₁.header pos run items.length).fillFrom run 0 items).buffer.getD i 0
        = (b₁.header pos run items.length).buffer.getD i 0 := hfill.kept i (.inl (by omega))
      _ = b₁.buffer.getD i 0 := hheader.kept i hapart
      _ = b.buffer.getD i 0 := hreserves.kept i
  · exact hfill.stored hpointer (.inl (by omega))
  · exact hfill.stored hcount (.inl (by omega))
  · have hstored := stored_fillFrom (b₁.header pos run items.length) hrun hi
    rwa [Nat.zero_add] at hstored

theorem stored_span (b : Builder) (pos start stop : Nat) :
    Stored (b.span pos start stop).buffer pos (encode 4 start) ∧
      Stored (b.span pos start stop).buffer (pos + 4) (encode 4 stop) := by
  have hstop := word_writes (b.word pos start) (pos + 4) stop
  have hwidth := length_encode 4 start
  refine ⟨hstop.stored (stored_bytes b pos (encode 4 start)) (.inl ?_), stored_bytes _ (pos + 4) _⟩
  omega

/-- The builder with a root record and its source type, before the statements. -/
def rootRecord (b : Builder) (root start stop : Nat) : Builder :=
  (b.span root start stop).byte (root + 125) 1

/-- A root record in reserved zeros. -/
structure AddsRoot (b b' : Builder) (root start stop : Nat) : Prop where
  fits : root + 280 ≤ b'.length
  spanStart : Stored b'.buffer root (encode 4 start)
  spanStop : Stored b'.buffer (root + 4) (encode 4 stop)
  sourceType : Stored b'.buffer (root + 125) [1]
  zeros : ∀ i, root + 8 ≤ i → i ≠ root + 125 → b'.buffer.getD i 0 = 0

theorem alloc_addsRoot (b : Builder) (start stop : Nat) :
    b.AddsRoot ((b.alloc rootSize).2.rootRecord (b.alloc rootSize).1 start stop)
      (b.alloc rootSize).1 start stop := by
  have hreserves := b.alloc_reserves rootSize
  generalize b.alloc rootSize = r at hreserves ⊢
  obtain ⟨root, b₁⟩ := r
  change b.AddsRoot (b₁.rootRecord root start stop) root start stop
  have hafter : b.length ≤ root := hreserves.after
  have hlength : b₁.length = root + 280 := hreserves.length
  have hspan := b₁.span_writes root start stop
  obtain ⟨hstart, hstop⟩ := b₁.stored_span root start stop
  have hbyte : (b₁.span root start stop).Writes (b₁.rootRecord root start stop) (root + 125)
      (root + 126) := bytes_writes _ (root + 125) [1]
  have hwidth := length_encode 4 start
  have hwidth' := length_encode 4 stop
  constructor
  · have hlonger := hspan.longer
    have hlonger' := hbyte.longer
    omega
  · exact hbyte.stored hstart (.inl (by omega))
  · exact hbyte.stored hstop (.inl (by omega))
  · exact stored_bytes (b₁.span root start stop) (root + 125) [1]
  · intro i hi hne
    rw [hbyte.kept i (by omega), hspan.kept i (.inr hi), hreserves.kept i,
      getD_of_length_le (by omega)]

theorem program_eq (b : Builder) (start stop : Nat) (items : List (UInt8 × Nat)) :
    b.program start stop items =
      ((b.alloc rootSize).1,
        { ((b.alloc rootSize).2.rootRecord (b.alloc rootSize).1 start stop).unions
            ((b.alloc rootSize).1 + 96) items with root := some (b.alloc rootSize).1 }) := rfl

/-- A program is written as its parts are. -/
theorem hasProgram_program (b : Builder) (start stop : Nat) (items : List (UInt8 × Nat)) :
    ∃ run, HasProgram (b.program start stop items).2.buffer (b.program start stop items).1 run start
      stop items := by
  have hroot := b.alloc_addsRoot start stop
  rw [program_eq]
  generalize (b.alloc rootSize).1 = root at hroot ⊢
  generalize (b.alloc rootSize).2.rootRecord root start stop = b₁ at hroot ⊢
  have hfits := hroot.fits
  obtain ⟨run, hunions⟩ := b₁.unions_adds (show root + 96 + 20 ≤ b₁.length by omega) items
  have hafter := hunions.after
  have hlength := hunions.runFits
  have hwidth := length_encode 4 start
  have hwidth' := length_encode 4 stop
  have hkept : ∀ {pos : Nat} {bytes : List UInt8}, Stored b₁.buffer pos bytes →
      pos + bytes.length ≤ root + 280 → pos + bytes.length ≤ root + 96 ∨ root + 116 ≤ pos →
      Stored (b₁.unions (root + 96) items).buffer pos bytes :=
    fun hbytes _ _ => hbytes.congr fun i _ _ => hunions.kept i (by omega) (by omega)
  have hzeros : ∀ pos count, root + 8 ≤ pos → pos + count ≤ root + 280 →
      pos + count ≤ root + 96 ∨ root + 116 ≤ pos → pos + count ≤ root + 125 ∨ root + 126 ≤ pos →
      Stored (b₁.unions (root + 96) items).buffer pos (List.replicate count 0) := by
    intro pos count _ _ _ _
    refine hkept (.zeros fun i _ _ => hroot.zeros i (by omega) (by omega)) ?_ ?_ <;>
      rwa [List.length_replicate]
  refine ⟨run, ?_, hlength, ?_, ?_, ?_, hunions.pointer, hunions.count, ?_, ?_, ?_,
    hunions.statements⟩
  · change root + 280 ≤ (b₁.unions (root + 96) items).length
    omega
  · exact hkept hroot.spanStart (by omega) (by omega)
  · exact hkept hroot.spanStop (by omega) (by omega)
  · exact hzeros (root + 56) 8 (by omega) (by omega) (by omega) (by omega)
  · exact hkept hroot.sourceType (by rw [List.length_singleton]; omega) (.inr (by omega))
  · exact hzeros (root + 128) 24 (by omega) (by omega) (by omega) (by omega)
  · exact hzeros (root + 256) 24 (by omega) (by omega) (by omega) (by omega)

theorem root_program (b : Builder) (start stop : Nat) (items : List (UInt8 × Nat)) :
    (b.program start stop items).2.root = some (b.program start stop items).1 := rfl

/-! ## Finished buffers -/

/-- The finished buffer has the bytes of the builder, and a trailer that names the root record. -/
structure Finishes (b : Builder) (buffer : Array UInt8) : Prop where
  longer : b.length + 16 ≤ buffer.size
  kept : ∀ i < b.length, buffer.getD i 0 = b.buffer.getD i 0
  trailer : ∀ root, b.root = some root → Stored buffer (buffer.size - 16) (encode 4 root)

theorem finish_finishes (b : Builder) : b.Finishes b.finish := by
  have hreserves := b.alloc_reserves trailerSize
  unfold finish
  generalize b.alloc trailerSize = r at hreserves ⊢
  obtain ⟨trailer, b₁⟩ := r
  have hafter : b.length ≤ trailer := hreserves.after
  have hlength : b₁.length = trailer + 16 := hreserves.length
  have hroot : b₁.root = b.root := hreserves.root
  simp only
  cases hr : b₁.root with
  | none =>
    refine ⟨?_, fun i _ => hreserves.kept i, fun root hroot' => ?_⟩
    · change b.length + 16 ≤ b₁.length
      omega
    · rw [hroot, hroot'] at hr
      cases hr
  | some root =>
    have hwrites := b₁.word_writes trailer root
    have hsize : (b₁.word trailer root).buffer.size = trailer + 16 := by
      have hword := b₁.length_bytes trailer (encode 4 root)
      rw [length_encode, hlength] at hword
      change (b₁.bytes trailer (encode 4 root)).length = trailer + 16
      omega
    refine ⟨?_, fun i hi => ?_, fun root' hroot' => ?_⟩
    · simp only [hsize]
      omega
    · simp only
      rw [hwrites.kept i (.inl (by omega)), hreserves.kept i]
    · rw [hroot, hroot'] at hr
      cases hr
      simp only [hsize, Nat.add_sub_cancel]
      exact stored_bytes b₁ trailer (encode 4 root)

/-! ## Calls -/

/-- A builder after a call: nothing is taken away, and the bytes before `limit` are as they were. -/
structure Keeps (limit : Nat) (b b' : Builder) : Prop where
  source : b'.source = b.source
  longer : b.length ≤ b'.length
  kept : ∀ i < limit, b'.buffer.getD i 0 = b.buffer.getD i 0

section Keeps

variable {limit : Nat}

theorem Keeps.refl (b : Builder) : b.Keeps limit b := ⟨rfl, Nat.le_refl _, fun _ _ => rfl⟩

theorem Keeps.trans (h : b.Keeps limit b') (h' : b'.Keeps limit b'') : b.Keeps limit b'' where
  source := h'.source.trans h.source
  longer := h.longer.trans h'.longer
  kept i hi := (h'.kept i hi).trans (h.kept i hi)

theorem Writes.keeps (h : b.Writes b' start stop) (hlimit : limit ≤ start) :
    b.Keeps limit b' where
  source := h.source
  longer := h.longer
  kept i hi := h.kept i (.inl (by omega))

theorem Reserves.keeps {size : Nat} {r : Nat × Builder} (h : b.Reserves size r) :
    b.Keeps limit r.2 where
  source := h.source
  longer := by
    have hafter := h.after
    have hlength := h.length
    omega
  kept i _ := h.kept i

/-- What is reserved lies behind everything, and can be written to. -/
theorem alloc_keeps (b : Builder) (size : Nat) (hlimit : limit ≤ b.length) :
    b.Keeps limit (b.alloc size).2 ∧ limit ≤ (b.alloc size).1 :=
  ⟨(b.alloc_reserves size).keeps, hlimit.trans (b.alloc_reserves size).after⟩

theorem stringHeader_keeps (b : Builder) {pos : Nat} (hpos : limit ≤ pos) (target n : Nat) :
    b.Keeps limit ((b.pointer pos target).word (pos + 8) n) :=
  ((b.pointer_writes pos target).keeps hpos).trans ((word_writes _ (pos + 8) n).keeps (by omega))

theorem sequence_keeps (b : Builder) (hlimit : limit ≤ b.length) {pos : Nat} (hpos : limit ≤ pos)
    (stride count : Nat) : b.Keeps limit (b.sequence pos stride count).2 :=
  (b.alloc_keeps _ hlimit).1.trans ((header_writes _ pos _ count).keeps hpos)

theorem unions_keeps (b : Builder) (hlimit : limit ≤ b.length) {pos : Nat} (hpos : limit ≤ pos)
    (items : List (UInt8 × Nat)) : b.Keeps limit (b.unions pos items) := by
  have hreserves := b.alloc_reserves (unionSize * items.length % wordModulus)
  rw [unions_eq]
  generalize b.alloc (unionSize * items.length % wordModulus) = r at hreserves ⊢
  have hafter := hreserves.after
  have hlength := hreserves.length
  have hheader := r.2.header_writes pos r.1 items.length
  have hlonger := hheader.longer
  have hfill := fillFrom_writes (r.2.header pos r.1 items.length)
    (show r.1 + unionSize * 0 ≤ _ by omega) items
  exact (hreserves.keeps.trans (hheader.keeps hpos)).trans (hfill.keeps (by omega))

theorem rawString_keeps (b : Builder) (hlimit : limit ≤ b.length) {pos : Nat} (hpos : limit ≤ pos)
    (bytes : List UInt8) : b.Keeps limit (b.rawString pos bytes) := by
  unfold rawString
  split
  · exact b.stringHeader_keeps hpos 0 0
  · obtain ⟨hkeeps, htarget⟩ := b.alloc_keeps bytes.length hlimit
    exact (hkeeps.trans ((bytes_writes _ _ bytes).keeps htarget)).trans
      (stringHeader_keeps _ hpos _ bytes.length)

theorem program_keeps (b : Builder) (hlimit : limit ≤ b.length) (start stop : Nat)
    (items : List (UInt8 × Nat)) : b.Keeps limit (b.program start stop items).2 := by
  obtain ⟨hkeeps, hroot⟩ := b.alloc_keeps rootSize hlimit
  rw [program_eq]
  generalize b.alloc rootSize = r at hkeeps hroot ⊢
  have hspan := (r.2.span_writes r.1 start stop).keeps hroot
  have hbyte := (bytes_writes (r.2.span r.1 start stop) (r.1 + 125) [1]).keeps
    (show limit ≤ r.1 + 125 by omega)
  have hrecord : b.Keeps limit (r.2.rootRecord r.1 start stop) :=
    (hkeeps.trans hspan).trans hbyte
  have hunions := (r.2.rootRecord r.1 start stop).unions_keeps (hlimit.trans hrecord.longer)
    (show limit ≤ r.1 + 96 by omega) items
  obtain ⟨hsource, hlonger, hkept⟩ := hrecord.trans hunions
  exact ⟨hsource, hlonger, hkept⟩

end Keeps

end Builder

/-- The offset that a call was told to write at, if it writes anything there. Whatever else a call
writes it writes to zeros that it has reserved. -/
def BuildCall.target? : BuildCall → Option Nat
  | .bytes pos data => if data.isEmpty then none else some pos
  | .byte pos _ | .word pos _ | .long pos _ | .flag pos _ | .span pos _ _ | .pointer pos _
  | .union pos _ _ | .header pos _ _ | .sequence pos _ _ | .unions pos _ | .sourceString pos _ _
  | .rawString pos _ | .string pos _ => some pos
  | .alloc _ | .node _ _ _ | .program _ _ _ | .emptyRoot | .length => none

/-- The call leaves the bytes before `limit` alone. -/
def BuildCall.Spares (limit : Nat) (c : BuildCall) : Prop :=
  ∀ pos, c.target? = some pos → limit ≤ pos

namespace Builder

variable {b : Builder} {limit : Nat} {c : BuildCall} {calls : List BuildCall}

theorem call_keeps (b : Builder) (hlimit : limit ≤ b.length) (h : c.Spares limit) :
    b.Keeps limit (b.call c).2 := by
  cases c with
  | alloc size => exact (b.alloc_keeps size hlimit).1
  | node size start stop =>
    obtain ⟨hkeeps, hpos⟩ := b.alloc_keeps size hlimit
    exact hkeeps.trans ((span_writes _ _ start stop).keeps hpos)
  | bytes pos data =>
    cases data with
    | nil =>
      obtain ⟨_, hsource, hlonger, _, hkept⟩ := b.bytes_writes pos []
      exact ⟨hsource, hlonger, fun i _ => hkept i (by rw [List.length_nil]; omega)⟩
    | cons byte rest => exact (b.bytes_writes pos (byte :: rest)).keeps (h pos rfl)
  | byte pos value => exact (b.bytes_writes pos [value]).keeps (h pos rfl)
  | word pos value => exact (b.word_writes pos value).keeps (h pos rfl)
  | long pos value => exact (b.bytes_writes pos (encode 8 value)).keeps (h pos rfl)
  | flag pos value => exact (b.bytes_writes pos [if value then 1 else 0]).keeps (h pos rfl)
  | span pos start stop => exact (b.span_writes pos start stop).keeps (h pos rfl)
  | pointer pos target => exact (b.pointer_writes pos target).keeps (h pos rfl)
  | union pos tag target => exact (b.union_writes pos tag target).keeps (h pos rfl)
  | header pos target count => exact (b.header_writes pos target count).keeps (h pos rfl)
  | sequence pos stride count => exact b.sequence_keeps hlimit (h pos rfl) stride count
  | unions pos items => exact b.unions_keeps hlimit (h pos rfl) items
  | sourceString pos start stop => exact b.stringHeader_keeps (h pos rfl) start _
  | rawString pos bytes => exact b.rawString_keeps hlimit (h pos rfl) bytes
  | string pos text => exact b.rawString_keeps hlimit (h pos rfl) _
  | program start stop body => exact b.program_keeps hlimit start stop body
  | emptyRoot => exact b.program_keeps hlimit 0 b.sourceLength []
  | length => exact .refl b

theorem callAll_keeps (b : Builder) (hlimit : limit ≤ b.length)
    (h : ∀ c ∈ calls, c.Spares limit) : b.Keeps limit (b.callAll calls) := by
  induction calls generalizing b with
  | nil => exact .refl b
  | cons c rest ih =>
    have hfirst := b.call_keeps hlimit (h c List.mem_cons_self)
    have hrest := ih (b.call c).2 (hlimit.trans hfirst.longer)
      fun other hother => h other (List.mem_cons_of_mem c hother)
    exact hfirst.trans hrest

/-- Whatever is called, the source stays and the buffer gets no shorter. -/
theorem callAll_grows (b : Builder) (calls : List BuildCall) : b.Keeps 0 (b.callAll calls) :=
  b.callAll_keeps (Nat.zero_le _) fun _ _ pos _ => Nat.zero_le pos

/-! Only root records change which one was written last. -/

@[simp] theorem root_bytes (b : Builder) (pos : Nat) (data : List UInt8) :
    (b.bytes pos data).root = b.root := rfl

@[simp] theorem root_alloc (b : Builder) (size : Nat) : (b.alloc size).2.root = b.root := rfl

theorem root_fillFrom (b : Builder) (run k : Nat) (items : List (UInt8 × Nat)) :
    (b.fillFrom run k items).root = b.root := by
  induction items generalizing b k with
  | nil => rfl
  | cons item rest ih =>
    rw [fillFrom_cons, ih]
    simp [union, byte, pointer, long]

theorem root_rawString (b : Builder) (pos : Nat) (data : List UInt8) :
    (b.rawString pos data).root = b.root := by
  unfold rawString
  split <;> simp [pointer, word, long]

theorem root_call (b : Builder) (h : c.WritesRoot = false) : (b.call c).2.root = b.root := by
  cases c with
  | unions pos items =>
    simp only [call, unions_eq, root_fillFrom]
    simp [header, pointer, word, long]
  | rawString pos data => exact b.root_rawString pos data
  | string pos text => exact b.root_rawString pos _
  | program start stop body => cases h
  | emptyRoot => cases h
  | _ => simp [call, call.reserved, node, sequence, header, union, sourceString, pointer, span, flag,
      byte, word, long]

/-- A builder after calls that write no root record: nothing is taken away. -/
structure Continues (b b' : Builder) : Prop where
  root : b'.root = b.root
  longer : b.length ≤ b'.length

theorem callAll_continues (b : Builder) {calls : List BuildCall}
    (h : ∀ c ∈ calls, c.WritesRoot = false) : b.Continues (b.callAll calls) where
  root := by
    induction calls generalizing b with
    | nil => rfl
    | cons c rest ih =>
      have hrest := ih (b.call c).2 fun other hother => h other (List.mem_cons_of_mem c hother)
      exact hrest.trans (b.root_call (h c List.mem_cons_self))
  longer := (b.callAll_grows calls).longer

end Builder

end FlatSyntax
