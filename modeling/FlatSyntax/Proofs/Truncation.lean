import Mathlib
import FlatSyntax.Proofs.SessionCutoff

/-!
# Truncated buffers

A buffer that ends early. No read clamps a range or makes up for missing bytes: a range that lies in
the shorter buffer holds the same bytes in the longer one, and any other range is a fault. So whatever
is asked of the shorter buffer is answered as by the longer one, or is the fault of a range that ends
past it, and a visitor calls for the same nodes up to such a fault.
-/

namespace FlatSyntax

namespace Document

/-- The fault of a range that ends past the buffer. -/
def Overruns (doc : Document) (f : Fault) : Prop :=
  ∃ pos length, doc.size < pos + length ∧ f = .outOfBounds pos length doc.size

/-- The document with more bytes at the end of its buffer, and otherwise the same. -/
def extended (doc : Document) (suffix : Array UInt8) : Document :=
  { doc with buffer := doc.buffer ++ suffix }

variable (doc : Document) (suffix : Array UInt8)

theorem size_extended : (doc.extended suffix).size = doc.size + suffix.size := Array.size_append

theorem check_of_gt {pos length : Nat} (h : doc.size < pos + length) :
    doc.check pos length = .error (.outOfBounds pos length doc.size) := by
  unfold check
  rw [if_neg (by omega)]

theorem bytes_of_gt {pos length : Nat} (h : doc.size < pos + length) :
    doc.bytes pos length = .error (.outOfBounds pos length doc.size) := by
  unfold bytes
  rw [check_of_gt doc h]
  rfl

theorem check_extended (pos length : Nat) :
    Cutoff doc.Overruns (doc.check pos length) ((doc.extended suffix).check pos length) := by
  have hsize := doc.size_extended suffix
  by_cases h : pos + length ≤ doc.size
  · unfold check
    rw [if_pos h, if_pos (by omega)]
    exact .refl _
  · have hpast : doc.size < pos + length := by omega
    rw [check_of_gt doc hpast]
    exact .of_fault ⟨pos, length, hpast, rfl⟩ _

theorem bytes_extended (pos length : Nat) :
    Cutoff doc.Overruns (doc.bytes pos length) ((doc.extended suffix).bytes pos length) := by
  have hsize := doc.size_extended suffix
  by_cases h : pos + length ≤ doc.size
  · -- the range ends before the bytes that were added
    have hlong : pos + length ≤ (doc.extended suffix).size := by omega
    have hbuffer : (doc.extended suffix).buffer.toList = doc.buffer.toList ++ suffix.toList :=
      Array.toList_append
    have hlength : doc.buffer.toList.length = doc.size := Array.length_toList
    rw [bytes_of_le h, bytes_of_le hlong, hbuffer, List.drop_append_of_le_length (by omega),
      List.take_append_of_le_length (by rw [List.length_drop]; omega)]
    exact .refl _
  · have hpast : doc.size < pos + length := by omega
    rw [bytes_of_gt doc hpast]
    exact .of_fault ⟨pos, length, hpast, rfl⟩ _

theorem extended_cutFrom : doc.CutFrom doc.Overruns (doc.extended suffix) where
  addressing := .inl rfl
  check := doc.check_extended suffix
  bytes := doc.bytes_extended suffix
  windows _ _ := rfl
  sources _ := rfl

/-- Truncating a buffer only turns answers into faults of ranges that end past it. -/
theorem extended_answers : doc.AnswersCutFrom doc.Overruns (doc.extended suffix) :=
  (doc.extended_cutFrom suffix).answers (.inl ⟨rfl, rfl⟩)

example : (zeros 4).span 0 = .error (.outOfBounds 4 4 4) ∧
    ((zeros 4).extended #[7, 0, 0, 0]).span 0 = .ok ⟨0, 7⟩ := by decide

end Document

end FlatSyntax
