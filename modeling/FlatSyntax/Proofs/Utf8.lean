import Mathlib
import FlatSyntax.Text.Cut
import FlatSyntax.Text.Utf8

/-!
# Text and its bytes

Decoding is lossy only where bytes are not UTF-8: the bytes of a text decode to the text. A character
is read back byte by byte, and after the bytes before the last one what is pending is the upper part
of its number. Cutting a text by bytes cuts its bytes.
-/

namespace FlatSyntax

namespace Utf8

theorem toList_byteArray (bytes : ByteArray) : bytes.toList = bytes.data.toList := by
  -- the loop has gone through `i` bytes and holds them in reverse
  have hloop : ∀ i done, ByteArray.toList.loop bytes i done =
      done.reverse ++ bytes.data.toList.drop i := by
    intro i done
    fun_induction ByteArray.toList.loop bytes i done with
    | case1 i done hlt ih =>
      have hi : i < bytes.data.toList.length := hlt
      have hget : bytes.get! i = bytes.data.toList[i] := by simp [ByteArray.get!, hlt]
      rw [ih, List.drop_eq_getElem_cons hi]
      simp [hget]
    | case2 i done hlt =>
      have hle : bytes.data.toList.length ≤ i := Nat.le_of_not_lt hlt
      rw [List.drop_eq_nil_of_le hle, List.append_nil]
  exact hloop 0 []

theorem encode_eq (text : String) : encode text = text.toList.flatMap String.utf8EncodeChar := by
  unfold encode
  rw [toList_byteArray, ← String.utf8Encode_toList, List.utf8Encode, List.toList_data_toByteArray]

theorem length_encode (text : String) : (encode text).length = text.utf8ByteSize := by
  unfold encode
  rw [toList_byteArray, Array.length_toList, ← String.size_toByteArray]
  rfl

/-! ## Characters -/

section Characters

variable {bits missing least most n : Nat}

theorem decodeFrom_tail (hleast : least ≤ n % 64 + 128) (hmost : n % 64 + 128 ≤ most)
    (rest : List UInt8) :
    decodeFrom (some ⟨bits, missing + 2, least, most⟩) (UInt8.ofNat (n % 64 + 128) :: rest) =
      decodeFrom (some ⟨bits * 64 + n % 64, missing + 1, 0x80, 0xbf⟩) rest := by
  have hbyte : (UInt8.ofNat (n % 64 + 128)).toNat = n % 64 + 128 :=
    UInt8.toNat_ofNat_of_lt' (by change _ < 256; omega)
  have hlow : (n % 64 + 128) % 64 = n % 64 := by omega
  simp only [decodeFrom, step, hbyte, hlow]
  rw [if_pos ⟨hleast, hmost⟩, if_neg (by omega)]
  rfl

theorem decodeFrom_last (hleast : least ≤ n % 64 + 128) (hmost : n % 64 + 128 ≤ most)
    (rest : List UInt8) :
    decodeFrom (some ⟨bits, 1, least, most⟩) (UInt8.ofNat (n % 64 + 128) :: rest) =
      Char.ofNat (bits * 64 + n % 64) :: decodeFrom none rest := by
  have hbyte : (UInt8.ofNat (n % 64 + 128)).toNat = n % 64 + 128 :=
    UInt8.toNat_ofNat_of_lt' (by change _ < 256; omega)
  have hlow : (n % 64 + 128) % 64 = n % 64 := by omega
  simp only [decodeFrom, step, hbyte, hlow]
  rw [if_pos ⟨hleast, hmost⟩, if_pos trivial]
  rfl

theorem decodeFrom_start {byte : UInt8} {p : Pending} (h : start byte = ([], some p))
    (rest : List UInt8) : decodeFrom none (byte :: rest) = decodeFrom (some p) rest := by
  rw [decodeFrom, step, h]
  rfl

theorem start_two (h : 0x80 ≤ n) (h' : n ≤ 0x7ff) :
    start (UInt8.ofNat (n / 64 % 32 + 192)) = ([], some ⟨n / 64, 1, 0x80, 0xbf⟩) := by
  have hbyte : (UInt8.ofNat (n / 64 % 32 + 192)).toNat = n / 64 + 192 := by
    rw [UInt8.toNat_ofNat_of_lt' (by change _ < 256; omega)]
    omega
  unfold start
  simp only [hbyte]
  rw [if_neg (by omega), if_neg (by omega), if_pos (by omega), Nat.add_sub_cancel]

/-- The range for the second byte leaves out what two bytes could say, and surrogates. -/
theorem start_three (h : 0x800 ≤ n) (h' : n ≤ 0xffff) (hvalid : n < 0xd800 ∨ 0xdfff < n) :
    ∃ least most, start (UInt8.ofNat (n / 4096 % 16 + 224)) =
        ([], some ⟨n / 4096, 2, least, most⟩) ∧
      least ≤ n / 64 % 64 + 128 ∧ n / 64 % 64 + 128 ≤ most := by
  have hbyte : (UInt8.ofNat (n / 4096 % 16 + 224)).toNat = n / 4096 + 224 := by
    rw [UInt8.toNat_ofNat_of_lt' (by change _ < 256; omega)]
    omega
  unfold start
  simp only [hbyte]
  rw [if_neg (by omega), if_neg (by omega), if_neg (by omega), Nat.add_sub_cancel]
  by_cases hfirst : n / 4096 + 224 = 0xe0
  · rw [if_pos hfirst]
    exact ⟨_, _, rfl, by omega, by omega⟩
  · rw [if_neg hfirst]
    by_cases hsurrogate : n / 4096 + 224 = 0xed
    · rw [if_pos hsurrogate]
      exact ⟨_, _, rfl, by omega, by omega⟩
    · rw [if_neg hsurrogate, if_pos (by omega)]
      exact ⟨_, _, rfl, by omega, by omega⟩

/-- The range for the second byte leaves out what three bytes could say, and numbers past the last
character. -/
theorem start_four (h : 0x10000 ≤ n) (h' : n ≤ 0x10ffff) :
    ∃ least most, start (UInt8.ofNat (n / 262144 % 8 + 240)) =
        ([], some ⟨n / 262144, 3, least, most⟩) ∧
      least ≤ n / 4096 % 64 + 128 ∧ n / 4096 % 64 + 128 ≤ most := by
  have hbyte : (UInt8.ofNat (n / 262144 % 8 + 240)).toNat = n / 262144 + 240 := by
    rw [UInt8.toNat_ofNat_of_lt' (by change _ < 256; omega)]
    omega
  unfold start
  simp only [hbyte]
  rw [if_neg (by omega), if_neg (by omega), if_neg (by omega), if_neg (by omega),
    if_neg (by omega), if_neg (by omega), Nat.add_sub_cancel]
  by_cases hfirst : n / 262144 + 240 = 0xf0
  · rw [if_pos hfirst]
    exact ⟨_, _, rfl, by omega, by omega⟩
  · rw [if_neg hfirst]
    by_cases hlast : n / 262144 + 240 < 0xf4
    · rw [if_pos hlast]
      exact ⟨_, _, rfl, by omega, by omega⟩
    · rw [if_neg hlast, if_pos (by omega)]
      exact ⟨_, _, rfl, by omega, by omega⟩

end Characters

theorem decodeFrom_ascii {byte : UInt8} (h : byte < 0x80) (rest : List UInt8) :
    decodeFrom none (byte :: rest) = Char.ofNat byte.toNat :: decodeFrom none rest := by
  have hlt : byte.toNat < 0x80 := by simpa [UInt8.lt_iff_toNat_lt] using h
  have hstart : start byte = ([Char.ofNat byte.toNat], none) := by
    unfold start
    exact if_pos hlt
  rw [decodeFrom, step, hstart]
  rfl

/-- The bytes of a character decode to it, whatever follows them. -/
theorem decodeFrom_encodeChar (c : Char) (rest : List UInt8) :
    decodeFrom none (String.utf8EncodeChar c ++ rest) = c :: decodeFrom none rest := by
  have hvalid : c.toNat < 0xd800 ∨ 0xdfff < c.toNat ∧ c.toNat < 0x110000 := c.valid
  have hchar : ∀ {n}, n = c.toNat → Char.ofNat n = c := fun heq => heq ▸ Char.ofNat_toNat c
  unfold String.utf8EncodeChar
  simp only [Char.toNat_val]
  split
  · rename_i hone
    have hbyte : (UInt8.ofNat c.toNat).toNat = c.toNat :=
      UInt8.toNat_ofNat_of_lt' (by change _ < 256; omega)
    have hlt : UInt8.ofNat c.toNat < 0x80 := by
      rw [UInt8.lt_iff_toNat_lt, hbyte]
      change c.toNat < 128
      omega
    rw [List.singleton_append, decodeFrom_ascii hlt, hchar hbyte]
  · split
    · rename_i htwo
      rw [List.cons_append, List.singleton_append, decodeFrom_start (start_two (by omega) htwo),
        decodeFrom_last (by omega) (by omega), hchar (by omega)]
    · split
      · rename_i hthree
        obtain ⟨least, most, hstart, hleast, hmost⟩ :=
          start_three (show 0x800 ≤ c.toNat by omega) hthree (by omega)
        rw [List.cons_append, List.cons_append, List.singleton_append, decodeFrom_start hstart,
          decodeFrom_tail hleast hmost, decodeFrom_last (by omega) (by omega), hchar (by omega)]
      · rename_i hfour
        obtain ⟨least, most, hstart, hleast, hmost⟩ :=
          start_four (show 0x10000 ≤ c.toNat by omega) (by omega)
        rw [List.cons_append, List.cons_append, List.cons_append, List.singleton_append,
          decodeFrom_start hstart, decodeFrom_tail hleast hmost,
          decodeFrom_tail (by omega) (by omega), decodeFrom_last (by omega) (by omega),
          hchar (by omega)]

/-! ## Texts -/

theorem decodeFrom_flatMap (chars : List Char) :
    decodeFrom none (chars.flatMap String.utf8EncodeChar) = chars := by
  induction chars with
  | nil => rfl
  | cons c chars ih => rw [List.flatMap_cons, decodeFrom_encodeChar, ih]

theorem decode_encode (text : String) : decode (encode text) = text := by
  rw [decode, encode_eq, decodeFrom_flatMap, String.ofList_toList]

/-- Equal bytes that each stand for a character of their own. -/
theorem decodeFrom_replicate {byte : UInt8} {c : Char} (h : start byte = ([c], none)) (n : Nat)
    (rest : List UInt8) : decodeFrom none (List.replicate n byte ++ rest) =
      List.replicate n c ++ decodeFrom none rest := by
  induction n with
  | zero => rfl
  | succ n ih =>
    rw [List.replicate_succ, List.replicate_succ, List.cons_append, decodeFrom, step, h, ih]
    rfl

end Utf8

namespace Text

theorem splitAtByte?_eq_some {n : Nat} {chars before after : List Char}
    (h : splitAtByte? n chars = some (before, after)) :
    chars = before ++ after ∧ (before.flatMap String.utf8EncodeChar).length = n := by
  induction chars generalizing n before with
  | nil =>
    cases n with
    | zero =>
      cases h
      exact ⟨rfl, rfl⟩
    | succ n => cases h
  | cons c chars ih =>
    cases n with
    | zero =>
      cases h
      exact ⟨rfl, rfl⟩
    | succ n =>
      rw [splitAtByte?] at h
      split at h
      · rename_i hle
        obtain ⟨⟨front, rest⟩, hsplit, heq⟩ := Option.map_eq_some_iff.mp h
        cases heq
        obtain ⟨rfl, hlength⟩ := ih hsplit
        refine ⟨rfl, ?_⟩
        rw [List.flatMap_cons, List.length_append, String.length_utf8EncodeChar, hlength]
        omega
      · cases h

/-- Where a part of a text stands among its bytes. -/
theorem cut?_eq_some {text part : String} {start length : Nat}
    (h : cut? text start length = some part) :
    ∃ before after, Utf8.encode text = before ++ Utf8.encode part ++ after ∧
      before.length = start ∧ (Utf8.encode part).length = length := by
  obtain ⟨⟨front, rest⟩, hfront, h⟩ := Option.bind_eq_some_iff.mp h
  obtain ⟨⟨middle, back⟩, hmiddle, h⟩ := Option.bind_eq_some_iff.mp h
  cases h
  obtain ⟨htext, hstart⟩ := splitAtByte?_eq_some hfront
  obtain ⟨rfl, hlength⟩ := splitAtByte?_eq_some hmiddle
  refine ⟨front.flatMap String.utf8EncodeChar, back.flatMap String.utf8EncodeChar, ?_, hstart, ?_⟩
  · simp only [Utf8.encode_eq, htext, String.toList_ofList, List.flatMap_append,
      List.append_assoc]
  · rw [Utf8.encode_eq, String.toList_ofList, hlength]

/-- A part cannot end inside of the first character. -/
theorem cut?_inside {c : Char} {length : Nat} (hpos : 0 < length) (hlt : length < c.utf8Size)
    (rest : List Char) : cut? (String.ofList (c :: rest)) 0 length = none := by
  obtain ⟨length, rfl⟩ := Nat.exists_eq_succ_of_ne_zero hpos.ne'
  have hsplit : splitAtByte? (length + 1) (c :: rest) = none := if_neg (Nat.not_le.mpr hlt)
  unfold cut?
  rw [String.toList_ofList]
  change (splitAtByte? (length + 1) (c :: rest)).bind _ = none
  rw [hsplit]
  rfl

end Text

end FlatSyntax
