import Mathlib
import FlatSyntax.Proofs.DocumentReads
import FlatSyntax.Proofs.Strings

/-!
# Numbers in a buffer

What reading a byte, a number or a source range gives, from the bytes that are there.
-/

namespace FlatSyntax

theorem littleEndian_lt (bytes : List UInt8) : littleEndian bytes < 256 ^ bytes.length := by
  induction bytes with
  | nil => exact Nat.one_pos
  | cons byte rest ih =>
    have hbyte := byte.toNat_lt
    rw [littleEndian, List.length_cons, pow_succ]
    omega

namespace Document

variable {doc : Document} {pos n : Nat}

theorem bytes_ok {length : Nat} {bytes : List UInt8} (h : doc.bytes pos length = .ok bytes) :
    pos + length ≤ doc.size ∧ bytes = (doc.buffer.toList.drop pos).take length := by
  obtain ⟨_, hcheck, _⟩ := ok_of_bind h
  have hle := check_ok hcheck
  rw [bytes_of_le hle] at h
  exact ⟨hle, (Except.ok.inj h).symm⟩

theorem length_of_bytes_ok {length : Nat} {bytes : List UInt8}
    (h : doc.bytes pos length = .ok bytes) : bytes.length = length := by
  obtain ⟨hle, rfl⟩ := bytes_ok h
  unfold size at hle
  simp only [List.length_take, List.length_drop, Array.length_toList]
  omega

theorem word_lt (h : doc.word pos = .ok n) : n < wordModulus := by
  obtain ⟨bytes, hbytes, h⟩ := ok_of_bind h
  cases h
  have hlt := littleEndian_lt bytes
  rw [length_of_bytes_ok hbytes] at hlt
  exact hlt

/-- The length of a sequence is a number of 32 bits. -/
theorem count_lt {element : Layout} {extent : Extent}
    (h : doc.extent (.sequence element pos) = .ok extent) : extent.count < wordModulus := by
  obtain ⟨pointer, _, h⟩ := ok_of_bind h
  obtain ⟨length, hlength, h⟩ := ok_of_bind h
  obtain ⟨_, _, h⟩ := ok_of_bind h
  cases h
  exact word_lt hlength

end Document

end FlatSyntax
