import Mathlib
import FlatSyntax.Proofs.BuilderMemory
import FlatSyntax.Proofs.Strings

/-!
# Reading strings from a finished buffer

A string that a builder adds lies behind everything, and so behind the source: whatever the options
and whatever is said of the source, its bytes are decoded. A string of the source is a window onto
the source text, or the bytes of the source at the front of the buffer, if they are still there. The
pointer of a string is not zero even if it points to the start, so an empty string is not an absent
one.

Bytes that are not UTF-8 decode to a text that can be three times as long as they are. The length of
a text has 32 bits, so of a text that is too long for it only a part is read.
-/

namespace FlatSyntax

theorem isPrefix_of_stored {buffer : Array UInt8} {bytes : List UInt8} (h : Stored buffer 0 bytes)
    (hle : bytes.length ≤ buffer.size) : bytes <+: buffer.toList := by
  rw [List.prefix_iff_getElem?]
  intro k hk
  have hin : k < buffer.size := by omega
  have hbyte := h k bytes[k] (List.getElem?_eq_getElem hk)
  rw [Nat.zero_add, Array.getD_eq_getD_getElem?, Array.getElem?_eq_getElem hin] at hbyte
  rw [Array.getElem?_toList, Array.getElem?_eq_getElem hin]
  exact congrArg some hbyte

namespace Document

variable {doc : Document} {pos : Nat} {text : Text}

/-- The string at an offset is `text`, also where it might be absent, in every session. -/
structure ReadsText (doc : Document) (pos : Nat) (text : Text) : Prop where
  string : ∀ s : Session, s.document = doc → ∀ field,
    s.exec (Session.decode field .text pos) = (.ok (.text text), s)
  optional : ∀ s : Session, s.document = doc → ∀ field,
    s.exec (Session.decode field (.optional .text) pos) = (.ok (.text text), s)

theorem ReadsText.of_text (htext : doc.text pos = .ok text)
    (hpresent : ∀ field, doc.isAbsent field .text pos = .ok false) : doc.ReadsText pos text where
  string s hdoc field := by
    rw [Session.exec_decode, hdoc]
    simp only [locate, htext]
    rfl
  optional s hdoc field := by
    rw [Session.exec_decode, hdoc]
    simp only [locate, hpresent, htext, bind, Except.bind]
    rfl

theorem textAt_of_behind {pointer : Nat} (h : ¬ pointer < doc.sourceLength) (length : Nat) :
    doc.textAt pointer length =
      (fun bytes => Text.own (Utf8.decode bytes)) <$> doc.bytes pointer length := by
  unfold textAt windowFor?
  simp [h]

/-- A part of the source is a window or is decoded, and comes out the same. -/
theorem textAt_of_cut {part : String} {start length : Nat}
    (hfront : Utf8.encode doc.sourceText <+: doc.buffer.toList)
    (hend : start + length < wordModulus)
    (hcut : Text.cut? doc.sourceText start length = some part) :
    ∃ shared, doc.textAt start length = .ok ⟨part, shared⟩ := by
  have hlargest : start + length ≤ largestWord := Nat.le_pred_of_lt hend
  have hwindow : doc.window? start length = some ⟨part, true⟩ := by
    simp [window?, hlargest, hcut]
  have hsize : part.utf8ByteSize < wordModulus := by
    obtain ⟨_, _, _, _, hlength⟩ := Text.cut?_eq_some hcut
    rw [← Utf8.length_encode]
    omega
  unfold textAt windowFor?
  split
  · rename_i text htext
    split at htext
    · rw [hwindow] at htext
      cases htext
      exact ⟨true, rfl⟩
    · cases htext
  · refine ⟨false, ?_⟩
    rw [bytes_of_cut hfront hcut]
    change Except.ok (Text.own (Utf8.decode (Utf8.encode part))) = _
    rw [Utf8.decode_encode, Text.own, if_pos hsize]

/-- A pointer and a length at an offset, in a buffer shorter than the range of offsets. -/
structure HasHeader (doc : Document) (pos pointer length : Nat) : Prop where
  fits : pos + 16 ≤ doc.size
  short : doc.size < wordModulus
  target : Stored doc.buffer pos (Builder.encode 8 (wordModulus + pointer))
  target_lt : pointer < wordModulus
  count : doc.word (pos + 8) = .ok length

section HasHeader

variable {pointer length : Nat}

theorem HasHeader.isAbsent (h : doc.HasHeader pos pointer length) (field : String) :
    doc.isAbsent field .text pos = .ok false := by
  have hfits := h.fits
  have hlong := long_of_pointer h.target (by omega) h.target_lt
  have hne : wordModulus + pointer ≠ 0 := by
    unfold wordModulus
    omega
  change (doc.long pos >>= fun n => if n = 0 then _ else _) = _
  rw [hlong]
  exact if_neg hne

theorem HasHeader.text_eq (h : doc.HasHeader pos pointer length) :
    doc.text pos = if length = 0 then .ok ⟨"", false⟩ else doc.textAt pointer length := by
  have hfits := h.fits
  have hshort := h.short
  have hoffset : doc.offset pos 8 = pos + 8 := offset_of_lt (by omega)
  have hpointer := word_of_pointer h.target (by omega) h.target_lt
  rw [Document.text_eq, hoffset, h.count, hpointer]
  rfl

theorem HasHeader.readsText_empty (h : doc.HasHeader pos pointer 0) :
    doc.ReadsText pos ⟨"", false⟩ :=
  .of_text h.text_eq h.isAbsent

theorem HasHeader.readsText (h : doc.HasHeader pos pointer length) (hlength : length ≠ 0)
    (htext : doc.textAt pointer length = .ok text) : doc.ReadsText pos text := by
  refine .of_text ?_ h.isAbsent
  rw [h.text_eq, if_neg hlength, htext]

end HasHeader

/-- The document is the finished buffer of a builder with the source that it was built from. What
is said of the source and the options are left open. -/
structure Built (doc : Document) (b : Builder) : Prop where
  buffer : doc.buffer = b.finish
  sourceText : doc.sourceText = b.source
  sourceLength : doc.sourceLength = b.sourceLength
  short : doc.size < wordModulus

section Built

variable {b : Builder}

theorem Built.longer (h : doc.Built b) : b.length + 16 ≤ doc.size := by
  have hlonger := b.finish_finishes.longer
  rwa [← h.buffer] at hlonger

theorem Built.stored (h : doc.Built b) {bytes : List UInt8} (hbytes : Stored b.buffer pos bytes)
    (hle : pos + bytes.length ≤ b.length) : Stored doc.buffer pos bytes := by
  rw [h.buffer]
  exact hbytes.congr fun i _ hi => b.finish_finishes.kept i (by omega)

/-- The header of a string, as a builder writes it. -/
theorem Built.hasHeader {pointer n : Nat}
    (h : doc.Built ((b.pointer pos pointer).word (pos + 8) n)) (hfits : pos + 16 ≤ b.length)
    (hpointer : pointer < wordModulus) : doc.HasHeader pos pointer (n % wordModulus) := by
  obtain ⟨hstored, hstored'⟩ := b.stored_pointer_word pos pointer n
  have hlonger := h.longer
  have hgrown := (b.stringHeader_keeps (Nat.zero_le pos) pointer n).longer
  have hwidth := Builder.length_encode 8 (wordModulus + pointer)
  have hwidth' := Builder.length_encode 4 n
  refine ⟨by omega, h.short, h.stored hstored (by omega), hpointer, ?_⟩
  exact word_of_encoded (h.stored hstored' (by omega)) (by omega)

end Built

end Document

namespace Builder

variable {doc : Document} {b : Builder} {pos : Nat}

/-- A string that is not empty lies behind everything that was there, with its header before it. -/
theorem rawString_adds (hpos : pos + 16 ≤ b.length) {bytes : List UInt8} (h : bytes ≠ []) :
    ∃ (target : Nat) (b₁ : Builder), b.length ≤ target ∧ pos + 16 ≤ b₁.length ∧
      b.rawString pos bytes = (b₁.pointer pos target).word (pos + 8) bytes.length ∧
      Stored (b.rawString pos bytes).buffer target bytes ∧
      target + bytes.length ≤ (b.rawString pos bytes).length := by
  have hreserves := b.alloc_reserves bytes.length
  have hraw : b.rawString pos bytes = (((b.alloc bytes.length).2.bytes (b.alloc bytes.length).1
      bytes).pointer pos (b.alloc bytes.length).1).word (pos + 8) bytes.length := by
    unfold rawString
    rw [if_neg (by simpa using h)]
  rw [hraw]
  generalize b.alloc bytes.length = r at hreserves ⊢
  have hafter := hreserves.after
  have hlength := hreserves.length
  have hbytes := r.2.bytes_writes r.1 bytes
  have hgrown := hbytes.longer
  have hheader := ((r.2.bytes r.1 bytes).pointer_writes pos r.1).trans
    (word_writes _ (pos + 8) bytes.length) (by omega) (by omega)
  refine ⟨r.1, r.2.bytes r.1 bytes, hafter, by omega, rfl, ?_, ?_⟩
  · exact hheader.stored (r.2.stored_bytes r.1 bytes) (.inr (by omega))
  · exact hbytes.reaches.trans hheader.longer

/-- A string that was added is read as what its bytes decode to. -/
theorem rawString_readsText (hpos : pos + 16 ≤ b.length) (hsource : b.sourceLength ≤ b.length)
    (bytes : List UInt8) (h : doc.Built (b.rawString pos bytes)) :
    doc.ReadsText pos (.own (Utf8.decode bytes)) := by
  by_cases hempty : bytes = []
  · subst hempty
    have hheader : doc.Built ((b.pointer pos 0).word (pos + 8) 0) := h
    exact (hheader.hasHeader hpos (by decide)).readsText_empty
  · obtain ⟨target, b₁, hafter, hfits, heq, hbytes, hend⟩ := rawString_adds hpos hempty
    have hlonger := h.longer
    have hshort := h.short
    have hstored := h.stored hbytes hend
    have hbehind : ¬ target < doc.sourceLength := by
      have hkeeps := b.rawString_keeps (Nat.zero_le _) (Nat.zero_le pos) bytes
      rw [h.sourceLength, sourceLength, hkeeps.source]
      change ¬ target < b.sourceLength
      omega
    rw [heq] at h
    have hheader := h.hasHeader hfits (show target < wordModulus by omega)
    rw [Nat.mod_eq_of_lt (show bytes.length < wordModulus by omega)] at hheader
    refine hheader.readsText (by simpa using hempty) ?_
    rw [Document.textAt_of_behind hbehind, Document.bytes_of_stored hstored (by omega)]
    rfl

/-- A text that was added is read as it is. -/
theorem string_readsText (hpos : pos + 16 ≤ b.length) (hsource : b.sourceLength ≤ b.length)
    (text : String) (h : doc.Built (b.string pos text)) : doc.ReadsText pos ⟨text, false⟩ := by
  have hraw := rawString_readsText hpos hsource (Utf8.encode text) h
  have hsize : text.utf8ByteSize < wordModulus := by
    rw [← Utf8.length_encode]
    by_cases hempty : Utf8.encode text = []
    · rw [hempty]
      decide
    · obtain ⟨_, _, _, _, _, _, hend⟩ := rawString_adds hpos hempty
      have hlonger := h.longer
      have hshort := h.short
      change _ ≤ (b.string pos text).length at hend
      omega
  rwa [Utf8.decode_encode, Text.own, if_pos hsize] at hraw

/-- A part of the source is read as it is, if the source still stands at the front. -/
theorem sourceString_readsText {start stop : Nat} {part : String} (hpos : pos + 16 ≤ b.length)
    (hsource : b.sourceLength ≤ b.length)
    (hfront : Stored (b.sourceString pos start stop).buffer 0 (Utf8.encode b.source))
    (horder : start ≤ stop) (hcut : Text.cut? b.source start (stop - start) = some part)
    (h : doc.Built (b.sourceString pos start stop)) :
    ∃ shared, doc.ReadsText pos ⟨part, shared⟩ := by
  unfold sourceString at hfront h
  have hkeeps := b.stringHeader_keeps (Nat.zero_le pos) start (wordModulus + stop - start)
  have hsame : doc.sourceText = b.source := h.sourceText.trans hkeeps.source
  have hgrown := hkeeps.longer
  have hlonger := h.longer
  have hshort := h.short
  have hlength : (Utf8.encode b.source).length = b.sourceLength := Utf8.length_encode _
  obtain ⟨before, after, hbytes, hbefore, hpart⟩ := Text.cut?_eq_some hcut
  have hwithin : start + (stop - start) ≤ b.sourceLength := by
    rw [← hlength, hbytes, List.length_append, List.length_append]
    omega
  have hcount : (wordModulus + stop - start) % wordModulus = stop - start := by
    rw [Nat.add_sub_assoc horder, Nat.add_mod_left, Nat.mod_eq_of_lt (by omega)]
  have hheader := h.hasHeader hpos (show start < wordModulus by omega)
  rw [hcount] at hheader
  by_cases hempty : stop - start = 0
  · rw [hempty] at hheader hpart
    rw [Utf8.length_encode] at hpart
    rw [String.utf8ByteSize_eq_zero_iff.mp hpart]
    exact ⟨false, hheader.readsText_empty⟩
  · have hprefix : Utf8.encode doc.sourceText <+: doc.buffer.toList := by
      have hlonger : _ ≤ doc.buffer.size := hlonger
      rw [hsame]
      exact isPrefix_of_stored (h.stored hfront (by omega)) (by omega)
    rw [← hsame] at hcut
    obtain ⟨shared, htext⟩ := Document.textAt_of_cut hprefix (by omega) hcut
    exact ⟨shared, hheader.readsText hempty htext⟩

/-! ## Every state of a builder -/

theorem ofSource_length (source : String) : source.utf8ByteSize ≤ (ofSource source).length := by
  unfold length ofSource pad
  rw [size_extend, ← Utf8.length_encode, ← List.size_toArray]
  exact Nat.le_max_left ..

theorem ofSource_stored (source : String) :
    Stored (ofSource source).buffer 0 (Utf8.encode source) := by
  intro k byte hk
  have hget : (Utf8.encode source).toArray[k]? = some byte := by simpa using hk
  unfold ofSource pad
  rw [getD_extend, Nat.zero_add, Array.getD_eq_getD_getElem?, hget]
  rfl

theorem sourceLength_callAll_le (source : String) (calls : List BuildCall) :
    ((ofSource source).callAll calls).sourceLength ≤ ((ofSource source).callAll calls).length := by
  have hgrown := (ofSource source).callAll_grows calls
  unfold sourceLength
  rw [hgrown.source]
  exact (ofSource_length source).trans hgrown.longer

/-- The strings that a builder writes next, read back from the finished buffer: a text, bytes, and a
part of the source, as long as nothing was written over the source. The text that bytes decode to is
read back if its length has 32 bits. If it is longer, the part up to what is left of the length is
read, or nothing if that part would end inside of a character. -/
structure StringsReadBack (source : String) (calls : List BuildCall) (pos : Nat) : Prop where
  text : ∀ (text : String) (doc : Document),
    doc.Built (((ofSource source).callAll calls).string pos text) → doc.ReadsText pos ⟨text, false⟩
  bytes : ∀ (bytes : List UInt8) (doc : Document),
    doc.Built (((ofSource source).callAll calls).rawString pos bytes) →
      (Utf8.decode bytes).utf8ByteSize < wordModulus → doc.ReadsText pos ⟨Utf8.decode bytes, false⟩
  longBytes : ∀ (bytes : List UInt8) (doc : Document),
    doc.Built (((ofSource source).callAll calls).rawString pos bytes) →
      wordModulus ≤ (Utf8.decode bytes).utf8ByteSize →
      doc.ReadsText pos ⟨(Text.cut? (Utf8.decode bytes) 0
        ((Utf8.decode bytes).utf8ByteSize % wordModulus)).getD "", false⟩
  source : ∀ {start stop : Nat} {part : String}, start ≤ stop →
    Text.cut? source start (stop - start) = some part →
    (∀ c ∈ calls, c.Spares source.utf8ByteSize) → source.utf8ByteSize ≤ pos →
    ∀ doc : Document, doc.Built (((ofSource source).callAll calls).sourceString pos start stop) →
      ∃ shared, doc.ReadsText pos ⟨part, shared⟩

/-- Whatever a builder has done before, a string that it writes to a header inside of the buffer is
read back. -/
theorem strings_readBack (source : String) (calls : List BuildCall) {pos : Nat}
    (hpos : pos + 16 ≤ ((ofSource source).callAll calls).length) :
    StringsReadBack source calls pos := by
  have hsource := sourceLength_callAll_le source calls
  have hsame : ((ofSource source).callAll calls).source = source :=
    ((ofSource source).callAll_grows calls).source
  refine ⟨fun text doc h => string_readsText hpos hsource text h, fun bytes doc h hsize => ?_,
    fun bytes doc h hsize => ?_, ?_⟩
  · have hread := rawString_readsText hpos hsource bytes h
    rwa [Text.own, if_pos hsize] at hread
  · have hread := rawString_readsText hpos hsource bytes h
    rwa [Text.own, if_neg (Nat.not_lt.mpr hsize)] at hread
  · intro start stop part horder hcut hspares hbehind doc h
    have hkept := (ofSource source).callAll_keeps (ofSource_length source) hspares
    have hheader := ((ofSource source).callAll calls).stringHeader_keeps hbehind start
      (wordModulus + stop - start)
    refine sourceString_readsText hpos hsource ?_ horder (by rw [hsame]; exact hcut) h
    rw [hsame]
    refine (ofSource_stored source).congr fun i _ hi => ?_
    rw [Nat.zero_add, Utf8.length_encode] at hi
    exact (hkept.trans hheader).kept i hi

/-- The finished buffer, with a source that is said to be ASCII. -/
def asAscii (b : Builder) : Document where
  buffer := b.finish
  sourceText := b.source
  sourceIsAscii := true
  sourceLength := b.sourceLength
  options := {}

theorem asAscii_built (b : Builder) (h : b.finish.size < wordModulus) : b.asAscii.Built b :=
  ⟨rfl, rfl, rfl, h⟩

/-- A text and the whole source, neither of them ASCII, and bytes that are not UTF-8, with a header
in reserved zeros. -/
theorem strings_readBack_reserved :
    (((ofSource "é").callAll [.alloc 16]).string 8 "€").asAscii.ReadsText 8 ⟨"€", false⟩ ∧
      (((ofSource "é").callAll [.alloc 16]).rawString 8 [0xe2, 0x82]).asAscii.ReadsText 8
        ⟨"�", false⟩ ∧
      ∃ shared, (((ofSource "é").callAll [.alloc 16]).sourceString 8 0 2).asAscii.ReadsText 8
        ⟨"é", shared⟩ := by
  have hback := strings_readBack "é" [.alloc 16] (show 8 + 16 ≤ _ by decide +kernel)
  have hdecoded : Utf8.decode [0xe2, 0x82] = "�" := by decide +kernel
  refine ⟨hback.text "€" _ (asAscii_built _ (by decide +kernel)), ?_, ?_⟩
  · rw [← hdecoded]
    exact hback.bytes [0xe2, 0x82] _ (asAscii_built _ (by decide +kernel)) (by decide +kernel)
  · refine hback.source (Nat.zero_le 2) (by decide) ?_ (by decide +kernel) _
      (asAscii_built _ (by decide +kernel))
    intro c hc pos hpos
    rw [List.mem_singleton.mp hc] at hpos
    cases hpos

/-! ## Texts that are too long -/

/-- Bytes that are no UTF-8, and zeros. -/
def spoiled (n m : Nat) : List UInt8 := List.replicate n 0xff ++ List.replicate m 0

section Spoiled

variable {n m : Nat}

theorem length_spoiled (n m : Nat) : (spoiled n m).length = n + m := by
  rw [spoiled, List.length_append, List.length_replicate, List.length_replicate]

theorem decode_spoiled (n m : Nat) : Utf8.decode (spoiled n m) =
    String.ofList (List.replicate n Utf8.replacement ++ List.replicate m '\x00') := by
  have hspoiled : Utf8.start 0xff = ([Utf8.replacement], none) := by decide
  have hzero : Utf8.start 0 = (['\x00'], none) := by decide
  have hzeros : Utf8.decodeFrom none (List.replicate m 0) = List.replicate m '\x00' := by
    simpa [Utf8.decodeFrom] using Utf8.decodeFrom_replicate hzero m []
  rw [Utf8.decode, spoiled, Utf8.decodeFrom_replicate hspoiled, hzeros]

/-- A replacement takes three bytes. -/
theorem utf8ByteSize_decode_spoiled (n m : Nat) :
    (Utf8.decode (spoiled n m)).utf8ByteSize = 3 * n + m := by
  have hreplacement : (String.utf8EncodeChar Utf8.replacement).length = 3 := by decide
  have hzero : (String.utf8EncodeChar '\x00').length = 1 := by decide
  rw [← Utf8.length_encode, Utf8.encode_eq, decode_spoiled, String.toList_ofList]
  simp only [List.flatMap_append, List.length_append, List.length_flatMap, List.map_replicate,
    List.sum_replicate, hreplacement, hzero, smul_eq_mul]
  omega

/-- Two bytes do not hold the first character. -/
theorem cut?_decode_spoiled (hn : 0 < n) (m : Nat) :
    Text.cut? (Utf8.decode (spoiled n m)) 0 2 = none := by
  obtain ⟨n, rfl⟩ := Nat.exists_eq_succ_of_ne_zero hn.ne'
  rw [decode_spoiled, List.replicate_succ, List.cons_append]
  exact Text.cut?_inside (by decide) (by decide) _

end Spoiled

/-- Bytes that a builder writes as a string to a header inside of the buffer, and that are read back
as the empty text from the finished buffer, although they decode to another one. -/
structure CutShort (b : Builder) (pos : Nat) (bytes : List UInt8) : Prop where
  inside : pos + 16 ≤ b.length
  built : (b.rawString pos bytes).asAscii.Built (b.rawString pos bytes)
  read : (b.rawString pos bytes).asAscii.ReadsText pos ⟨"", false⟩
  decoded : Utf8.decode bytes ≠ ""

/-- The text has two bytes more than its length can say, and these end inside of a character. -/
theorem cutShort_spoiled {n m : Nat} (hpos : pos + 16 ≤ b.length)
    (hsource : b.sourceLength ≤ b.length) (hn : 0 < n) (hlong : 3 * n + m = wordModulus + 2)
    (hshort : aligned (aligned b.length + (n + m)) + trailerSize < wordModulus) :
    b.CutShort pos (spoiled n m) := by
  have hsize := utf8ByteSize_decode_spoiled n m
  have hne : spoiled n m ≠ [] := by
    rw [ne_eq, ← List.length_eq_zero_iff, length_spoiled]
    omega
  have hown : Text.own (Utf8.decode (spoiled n m)) = ⟨"", false⟩ := by
    have hrest : (3 * n + m) % wordModulus = 2 := by
      rw [hlong]
      decide
    rw [Text.own, hsize, if_neg (by omega), hrest, cut?_decode_spoiled hn]
    rfl
  have hbuilt : (b.rawString pos (spoiled n m)).asAscii.Built (b.rawString pos (spoiled n m)) := by
    refine asAscii_built _ ?_
    rwa [size_finish, length_rawString hpos hne, length_spoiled]
  refine ⟨hpos, hbuilt, hown ▸ rawString_readsText hpos hsource _ hbuilt, fun hempty => ?_⟩
  rw [hempty] at hsize
  change 0 = _ at hsize
  omega

/-- Zeros at the end of what is written to reserved bytes are there already. -/
theorem alloc_bytes_zeros (b : Builder) (front : List UInt8) (m : Nat) :
    (b.alloc (front.length + m)).2.bytes (aligned b.length) (front ++ List.replicate m 0) =
      (b.alloc (front.length + m)).2.bytes (aligned b.length) front := by
  have hreserves := b.alloc_reserves (front.length + m)
  refine eq_of_buffer ((bytes_does _ _ _).buffer_eq (bytes_does _ _ _) ?_ fun i => ?_) rfl rfl
  · have hend := hreserves.length
    rw [alloc_fst] at hend
    simp only [List.foldl_cons, List.foldl_nil, Part.stop, List.length_append,
      List.length_replicate, hend]
    omega
  · rw [hreserves.kept]
    simp only [List.foldl_cons, List.foldl_nil, Part.byteAt]
    split
    · rename_i hle
      rw [getD_of_length_le ((le_aligned b.length).trans hle)]
      grind
    · rfl

/-- A string that ends in zeros, built without writing them. -/
theorem rawString_zeros (b : Builder) (pos : Nat) {front : List UInt8} (hfront : front ≠ [])
    (m : Nat) : b.rawString pos (front ++ List.replicate m 0) =
      b.callAll [.alloc (front.length + m), .bytes (aligned b.length) front,
        .pointer pos (aligned b.length), .word (pos + 8) (front.length + m)] := by
  unfold rawString
  rw [if_neg (by simp [hfront]), List.length_append, List.length_replicate]
  simp only [alloc_fst, alloc_bytes_zeros]
  rfl

/-- A sequence of two strings. The header of the first one is left out, and the second one lies
outside of the buffer. -/
def twoStrings : Builder :=
  (ofSource "").callAll [.alloc 56, .header 0 24 2, .pointer 40 4294967295, .word 48 1]

/-- Two strings of which only the empty text is left: the first string of a sequence, which can be
built without writing its zeros, and one in which no byte is UTF-8. -/
theorem strings_readBack_cutShort :
    twoStrings.CutShort 24 (spoiled 65 4294967103) ∧
      twoStrings.rawString 24 (spoiled 65 4294967103) =
        twoStrings.callAll [.alloc 4294967168, .bytes 56 (List.replicate 65 0xff), .pointer 24 56,
          .word 32 4294967168] ∧
      ((ofSource "").callAll [.alloc 16]).CutShort 0 (List.replicate 1431655766 0xff) := by
  have hlength : twoStrings.length = 56 := by decide +kernel
  have hlength' : ((ofSource "").callAll [.alloc 16]).length = 16 := by decide +kernel
  refine ⟨?_, ?_, ?_⟩
  · refine cutShort_spoiled (by omega) (sourceLength_callAll_le "" _) (by decide) (by decide) ?_
    rw [hlength]
    decide
  · have hfront : List.replicate 65 (0xff : UInt8) ≠ [] :=
      List.cons_ne_nil 0xff (List.replicate 64 0xff)
    have hzeros := twoStrings.rawString_zeros 24 hfront 4294967103
    rw [hlength, List.length_replicate] at hzeros
    exact hzeros
  · have hcut : CutShort _ 0 (spoiled 1431655766 0) := cutShort_spoiled (hlength'.symm ▸ by decide)
      (sourceLength_callAll_le "" [.alloc 16]) (by decide) (by decide) (by rw [hlength']; decide)
    rwa [spoiled, List.replicate_zero, List.append_nil] at hcut

end Builder

end FlatSyntax
