import Mathlib
import FlatSyntax.Proofs.Builder
import FlatSyntax.Proofs.InPlace
import FlatSyntax.Proofs.Saturation

/-!
# Addresses of elements

An element of a sequence has two addresses: the one that it is read at on its own, by a product and a
sum that stop at the largest offset, and the one that a walk goes to, by a product that wraps around.
Both are the exact address for as long as that is an offset at all, and neither is from then on. In a
buffer of no more bytes than there are offsets every element of a run that was checked begins at an
offset, so that both readers go to the same exact addresses; the check itself knows no such bound, and
lets a run of a longer buffer pass that goes on past the largest offset.
-/

namespace FlatSyntax.Document

variable {doc : Document} {element : Layout} {pos index : Nat} {run : Extent}

/-- The offset that a walk visits an element at. -/
def walkedPos (doc : Document) (run : Extent) (element : Layout) (index : Nat) : Nat :=
  doc.offset run.base (doc.addressing.stride index element.size)

/-- An element begins at an offset. -/
def Addressed (run : Extent) (element : Layout) (index : Nat) : Prop :=
  run.base + index * element.size < wordModulus

instance : Decidable (Addressed run element index) := inferInstanceAs (Decidable (_ < _))

/-- The readers of a run agree on the addresses of its elements, and these are exact. -/
structure ExactAddresses (doc : Document) (element : Layout) (pos : Nat) (run : Extent) : Prop where
  /-- An element is read on its own at one address, … -/
  read : ∀ index < run.count, doc.access.slot ⟨.sequence element pos, run, ()⟩ index =
    doc.read element.name element (doc.elementPos run element index)
  /-- … whichever object has opened the sequence. -/
  slot : ∀ {τ : Type} (mark : τ), ∀ index < run.count,
    doc.slot? ⟨.sequence element pos, run, mark⟩ index =
      some ⟨element.name, element, doc.elementPos run element index, true⟩
  /-- A walk that looks for what the elements can hold visits each of them, in order. -/
  walk : ∀ (v : Visitor), v.plan.reaches element = true →
    (v.walkValue doc (.sequence element) pos).1 = (List.range run.count).forM fun index =>
      (v.walkValue doc element (doc.walkedPos run element index)).1
  /-- Both addresses are exact for an element that begins at an offset, and the product is one too. -/
  exact : ∀ index < run.count, Addressed run element index →
    index * element.size < wordModulus ∧
    doc.elementPos run element index = run.base + index * element.size ∧
    doc.walkedPos run element index = run.base + index * element.size
  /-- Offsets of 32 bits are exact for no other element. -/
  inexact : doc.addressing = .saturating → ∀ index < run.count, ¬ Addressed run element index →
    doc.elementPos run element index = largestWord ∧
    doc.walkedPos run element index < run.base + index * element.size
  /-- Every element begins at an offset in a buffer of no more bytes than there are offsets. -/
  addressed : doc.size ≤ wordModulus → ∀ index < run.count, Addressed run element index

/-! ## Exact addresses -/

theorem elementPos_of_addressed (h : Addressed run element index) :
    doc.elementPos run element index = run.base + index * element.size := by
  unfold Addressed at h
  have hproduct : index * element.size ≤ largestWord := by
    unfold largestWord wordModulus at *
    omega
  rw [elementPos, Addressing.scale_of_le hproduct, offset_of_lt h]

theorem walkedPos_of_addressed (h : Addressed run element index) :
    doc.walkedPos run element index = run.base + index * element.size := by
  unfold Addressed at h
  rw [walkedPos, Addressing.stride_of_lt (by omega), offset_of_lt h]

/-- Reading an element on its own stops at the largest offset. -/
theorem elementPos_of_not_addressed (hsaturating : doc.addressing = .saturating)
    (h : ¬ Addressed run element index) : doc.elementPos run element index = largestWord := by
  unfold Addressed wordModulus at h
  rw [elementPos, offset, hsaturating]
  simp only [Addressing.add, Addressing.scale, largestWord]
  omega

/-- Walking stops at the largest offset too, or has wrapped around before. -/
theorem walkedPos_lt (hsaturating : doc.addressing = .saturating)
    (h : ¬ Addressed run element index) :
    doc.walkedPos run element index < run.base + index * element.size := by
  unfold Addressed at h
  rw [walkedPos, offset, hsaturating]
  simp only [Addressing.add, Addressing.stride]
  rcases Nat.lt_or_ge (index * element.size) wordModulus with hlt | hge
  · refine (Nat.min_le_right ..).trans_lt ?_
    unfold largestWord wordModulus at *
    omega
  · have hwrapped : index * element.size % wordModulus < index * element.size :=
      (Nat.mod_lt _ (by decide)).trans_le hge
    exact (Nat.min_le_left ..).trans_lt (by omega)

/-! ## Opened runs -/

theorem slot?_sequence {τ : Type} (mark : τ) (hindex : index < run.count) :
    doc.slot? ⟨.sequence element pos, run, mark⟩ index =
      some ⟨element.name, element, doc.elementPos run element index, true⟩ := by
  simp [slot?, hindex, elementPos]

theorem access_slot_sequence (hindex : index < run.count) :
    doc.access.slot ⟨.sequence element pos, run, ()⟩ index =
      doc.read element.name element (doc.elementPos run element index) := by
  simp only [access, slot?_sequence () hindex]

/-- What opening a sequence reads and checks. -/
theorem extent_sequence_iff : doc.extent (.sequence element pos) = .ok run ↔
    doc.word pos = .ok run.base ∧ doc.word (doc.offset pos 8) = .ok run.count ∧
      doc.check run.base (run.count * element.size) = .ok () := by
  constructor
  · intro h
    obtain ⟨pointer, hpointer, h⟩ := ok_of_bind h
    obtain ⟨length, hlength, h⟩ := ok_of_bind h
    obtain ⟨_, hcheck, h⟩ := ok_of_bind h
    cases h
    exact ⟨hpointer, hlength, hcheck⟩
  · rintro ⟨hpointer, hlength, hcheck⟩
    rw [extent, hpointer, hlength]
    change (doc.check run.base (run.count * element.size) >>= fun _ => pure run) = _
    rw [hcheck]
    rfl

theorem addressed_of_extent (h : doc.extent (.sequence element pos) = .ok run)
    (hsize : doc.size ≤ wordModulus) (hindex : index < run.count) :
    Addressed run element index := by
  obtain ⟨hpointer, _, hcheck⟩ := extent_sequence_iff.mp h
  have hbase := word_lt hpointer
  have hrun := check_ok hcheck
  have hnext : (index + 1) * element.size ≤ run.count * element.size :=
    Nat.mul_le_mul_right element.size hindex
  rw [Nat.succ_mul] at hnext
  unfold Addressed
  -- elements without bytes all begin at the base, which is an offset by itself
  rcases Nat.eq_zero_or_pos element.size with hzero | hpos
  · rw [hzero, Nat.mul_zero]
    exact hbase
  · omega

theorem walkValue_sequence (v : Visitor) (h : doc.extent (.sequence element pos) = .ok run)
    (hreaches : v.plan.reaches element = true) :
    (v.walkValue doc (.sequence element) pos).1 = (List.range run.count).forM fun index =>
      (v.walkValue doc element (doc.walkedPos run element index)).1 := by
  obtain ⟨hpointer, hlength, hcheck⟩ := extent_sequence_iff.mp h
  have hbind : ∀ {α β : Type} (a : α) (f : α → Trace β), ((⟨[], .ok a⟩ : Trace α) >>= f) = f a :=
    fun _ _ => rfl
  simp only [Visitor.walkValue_eq]
  rw [Walk.value]
  simp only [Walk.Guide.ofPlan, Trace.pure_eq, hreaches, hbind, if_true, Trace.ofExcept, hpointer,
    hlength, hcheck, walkedPos]

theorem exactAddresses_of_extent (h : doc.extent (.sequence element pos) = .ok run) :
    doc.ExactAddresses element pos run where
  read _ hindex := access_slot_sequence hindex
  slot mark _ hindex := slot?_sequence mark hindex
  walk v hreaches := walkValue_sequence v h hreaches
  exact index _ haddressed := by
    have hproduct : index * element.size < wordModulus := by
      unfold Addressed at haddressed
      omega
    exact ⟨hproduct, elementPos_of_addressed haddressed, walkedPos_of_addressed haddressed⟩
  inexact hsaturating index _ hnot :=
    ⟨elementPos_of_not_addressed hsaturating hnot, walkedPos_lt hsaturating hnot⟩
  addressed hsize _ hindex := addressed_of_extent h hsize hindex

/-- A header of two numbers and the numbers behind it, in a buffer of thirty-two bytes. -/
def twoWords : Document where
  buffer := #[24, 0, 0, 0, 1, 0, 0, 0, 2, 0, 0, 0, 0, 0, 0, 0, 2, 0, 0, 0, 0, 0, 0, 0,
    7, 0, 0, 0, 8, 0, 0, 0]
  sourceText := ""
  sourceIsAscii := true
  sourceLength := 0
  options := {}

theorem exactAddresses_twoWords :
    twoWords.extent (.sequence .word 0) = .ok ⟨24, 2⟩ ∧
      twoWords.ExactAddresses .word 0 ⟨24, 2⟩ := by
  have hextent : twoWords.extent (.sequence .word 0) = .ok ⟨24, 2⟩ := by rfl
  exact ⟨hextent, exactAddresses_of_extent hextent⟩

/-! ## A run past the largest offset -/

/-- A header of two bytes, the first of which is at the largest offset. -/
def straddle : Builder := ((Builder.ofSource "").header 0 largestWord 2).bytes largestWord [7, 8]

/-- The finished buffer of that header and these bytes. -/
def straddling : Document where
  buffer := straddle.finish
  sourceText := ""
  sourceIsAscii := true
  sourceLength := 0
  options := {}

theorem straddling_stored :
    Stored straddling.buffer 0 (Builder.encode 8 (wordModulus + largestWord)) ∧
      Stored straddling.buffer 8 (Builder.encode 4 2) ∧
      Stored straddling.buffer largestWord [7, 8] ∧ largestWord + 2 ≤ straddling.size := by
  have hheader := (Builder.ofSource "").stored_header 0 largestWord 2
  have hwrites : Builder.Writes _ straddle largestWord (largestWord + 2) :=
    Builder.bytes_writes _ largestWord [7, 8]
  have hbytes : Stored straddle.buffer largestWord [7, 8] := Builder.stored_bytes _ largestWord [7, 8]
  have hfinishes : straddle.Finishes straddling.buffer := straddle.finish_finishes
  have hreaches : largestWord + 2 ≤ straddle.length := hwrites.reaches
  have hkept : ∀ {pos bytes}, Stored straddle.buffer pos bytes →
      pos + bytes.length ≤ largestWord + 2 → Stored straddling.buffer pos bytes :=
    fun hstored hle => hstored.congr fun i _ hi => hfinishes.kept i (by omega)
  have hwidth := Builder.length_encode 8 (wordModulus + largestWord)
  have hwidth' := Builder.length_encode 4 2
  have hlarge : 24 ≤ largestWord := by decide
  refine ⟨?_, ?_, ?_, ?_⟩
  · exact hkept (hwrites.stored hheader.1 (.inl (by omega))) (by omega)
  · exact hkept (hwrites.stored hheader.2 (.inl (by omega))) (by omega)
  · exact hkept hbytes (Nat.le_refl _)
  · have hlonger := hfinishes.longer
    unfold size
    omega

/-- The check lets the run pass, and the second byte is read where the first one is. -/
theorem straddling_inexact :
    straddling.extent (.sequence .byte 0) = .ok ⟨largestWord, 2⟩ ∧
      straddling.elementPos ⟨largestWord, 2⟩ .byte 1 ≠ largestWord + 1 * Layout.byte.size ∧
      straddling.access.slot ⟨.sequence .byte 0, ⟨largestWord, 2⟩, ()⟩ 1 = .ok (.byte 7) ∧
      straddling.byte (largestWord + 1 * Layout.byte.size) = .ok 8 := by
  obtain ⟨hpointer, hcount, hbytes, hsize⟩ := straddling_stored
  have hlarge : 24 ≤ largestWord := by decide
  have hbase : straddling.word 0 = .ok largestWord :=
    word_of_pointer hpointer (by omega) (by decide)
  have hlength : straddling.word (straddling.offset 0 8) = .ok 2 := by
    rw [offset_of_lt (by decide)]
    exact word_of_stored hcount (by omega) (by decide)
  have hcheck : straddling.check largestWord (2 * Layout.byte.size) = .ok () := if_pos hsize
  have hfirst : straddling.byte largestWord = .ok 7 := byte_of_stored hbytes.front (by omega)
  have hpos : straddling.elementPos ⟨largestWord, 2⟩ .byte 1 = largestWord :=
    elementPos_of_not_addressed rfl (by decide)
  refine ⟨?_, ?_, ?_, ?_⟩
  · exact extent_sequence_iff.mpr ⟨hbase, hlength, hcheck⟩
  · rw [hpos]
    decide
  · rw [access_slot_sequence (by decide), hpos, read, locate, hfirst]
    rfl
  · have hsecond : Stored straddling.buffer (largestWord + 1) [8] := by
      intro k byte hk
      rw [Nat.add_assoc, Nat.add_comm 1 k]
      exact hbytes (k + 1) byte hk
    exact byte_of_stored hsecond hsize

end FlatSyntax.Document
