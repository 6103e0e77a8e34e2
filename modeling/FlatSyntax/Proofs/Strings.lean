import Mathlib
import FlatSyntax.Proofs.DocumentReads
import FlatSyntax.Proofs.SessionReads
import FlatSyntax.Proofs.Utf8

/-!
# The ways of decoding a string agree

A string is a window onto the source, or its bytes are decoded at once, or they are decoded one by
one up to the first that is not ASCII and then at once. Which of the three it is depends on the
options; what comes out does not. Bytes decoded one by one come out as if decoded at once because an
ASCII byte leaves no character pending. A window comes out like the bytes below it if the source
stands at the front of the buffer.
-/

namespace FlatSyntax

namespace Text

theorem own_content {content : String} (h : content.utf8ByteSize < wordModulus) :
    (own content).content = content := by
  unfold own
  rw [if_pos h]

end Text

/-! ## One decoder of bytes -/

namespace Document

variable {doc : Document}

/-- Decoding byte by byte gives what decoding at once gives. -/
theorem decodeBytewise_eq (bytes : List UInt8) :
    decodeBytewise bytes = Utf8.decodeFrom none bytes := by
  induction bytes with
  | nil => rfl
  | cons byte rest ih =>
    unfold decodeBytewise
    split
    · rename_i h
      rw [Utf8.decodeFrom_ascii h, ih]
    · rfl

theorem decodeBytes_eq (doc : Document) (bytes : List UInt8) :
    doc.decodeBytes bytes = Utf8.decode bytes := by
  unfold decodeBytes
  rw [decodeBytewise_eq]
  exact ite_self _

/-- The window that a string is, if it is one. -/
def windowFor? (doc : Document) (pointer length : Nat) : Option Text :=
  if doc.sourceIsAscii && doc.options.asciiFastPath && pointer < doc.sourceLength then
    doc.window? pointer length
  else none

/-- What a string with a pointer and a length is: a window, or what its bytes decode to. -/
def textAt (doc : Document) (pointer length : Nat) : Except Fault Text :=
  match doc.windowFor? pointer length with
  | some text => .ok text
  | none => (fun bytes => Text.own (Utf8.decode bytes)) <$> doc.bytes pointer length

theorem text_eq (doc : Document) (pos : Nat) :
    doc.text pos = (do
      let length ← doc.word (doc.offset pos 8)
      if length = 0 then return ⟨"", false⟩
      let pointer ← doc.word pos
      doc.textAt pointer length) := by
  unfold text
  refine congrArg _ (funext fun length => ?_)
  split
  · rfl
  · refine congrArg _ (funext fun pointer => ?_)
    unfold textAt windowFor?
    simp only [decodeBytes_eq]
    rfl

/-! ## Windows -/

/-- The source is ASCII, is said to be, and stands at the front of the buffer. -/
structure SourceInFront (doc : Document) : Prop where
  ascii : Utf8.isAscii doc.sourceText = true
  flagged : doc.sourceIsAscii = true
  bytes : Utf8.encode doc.sourceText <+: doc.buffer.toList

theorem bytes_of_le {pos length : Nat} (h : pos + length ≤ doc.size) :
    doc.bytes pos length = .ok ((doc.buffer.toList.drop pos).take length) := by
  unfold bytes check
  rw [if_pos h]
  simp [bind, Except.bind, pure, Except.pure, List.extract_eq_take_drop]

/-- A part of the source, read from a buffer that has the source at the front. -/
theorem bytes_of_cut {source part : String} {start length : Nat}
    (hfront : Utf8.encode source <+: doc.buffer.toList)
    (hcut : Text.cut? source start length = some part) :
    doc.bytes start length = .ok (Utf8.encode part) := by
  obtain ⟨before, after, hsource, rfl, rfl⟩ := Text.cut?_eq_some hcut
  obtain ⟨rest, hbuffer⟩ := hfront
  rw [hsource, List.append_assoc, List.append_assoc] at hbuffer
  have hsize : before.length + (Utf8.encode part).length ≤ doc.size := by
    have hlength := congrArg List.length hbuffer
    simp only [List.length_append, Array.length_toList] at hlength
    unfold size
    omega
  rw [bytes_of_le hsize, ← hbuffer, List.drop_left, List.take_left]

/-- A window shows what the bytes below it decode to. -/
theorem bytes_of_window (hsource : doc.SourceInFront) {start length : Nat} {text : Text}
    (hwindow : doc.window? start length = some text) :
    ∃ bytes, doc.bytes start length = .ok bytes ∧ Utf8.decode bytes = text.content ∧
      text.content.utf8ByteSize < wordModulus := by
  unfold window? at hwindow
  by_cases hend : start + length ≤ largestWord
  · simp only [hend, guard_true, pure_bind] at hwindow
    obtain ⟨part, hcut, hpart⟩ := Option.bind_eq_some_iff.mp hwindow
    cases hpart
    refine ⟨_, bytes_of_cut hsource.bytes hcut, Utf8.decode_encode part, ?_⟩
    obtain ⟨_, _, _, _, hlength⟩ := Text.cut?_eq_some hcut
    rw [Utf8.length_encode] at hlength
    simp only [hlength]
    unfold largestWord at hend
    unfold wordModulus
    omega
  · simp [hend, guard] at hwindow

/-! ## Options do not show -/

/-- The document read with another threshold for decoding byte by byte. -/
def withThreshold (doc : Document) (n : Nat) : Document :=
  { doc with options := { doc.options with shortTextThreshold := n } }

/-- The document read with windows onto the source, or without. -/
def withFastPath (doc : Document) (on : Bool) : Document :=
  { doc with options := { doc.options with asciiFastPath := on } }

theorem text_withThreshold (doc : Document) (n pos : Nat) :
    (doc.withThreshold n).text pos = doc.text pos := by
  rw [text_eq, text_eq]
  rfl

theorem windowFor?_withFastPath_false (doc : Document) (pointer length : Nat) :
    (doc.withFastPath false).windowFor? pointer length = none := by
  unfold windowFor?
  rw [if_neg]
  simp [withFastPath]

/-- A string that lies in the buffer is what its bytes decode to, whether or not it is a window. -/
theorem textAt_content (hsource : doc.SourceInFront ∨ doc.options.asciiFastPath = false)
    {pointer length : Nat} {text : Text} (h : doc.textAt pointer length = .ok text) :
    ∃ bytes, doc.bytes pointer length = .ok bytes ∧
      ((Utf8.decode bytes).utf8ByteSize < wordModulus → text.content = Utf8.decode bytes) := by
  unfold textAt at h
  split at h
  · rename_i window hwindow
    cases h
    unfold windowFor? at hwindow
    split at hwindow
    · rename_i hfast
      have hfront : doc.SourceInFront := hsource.resolve_right fun hoff => by simp [hoff] at hfast
      obtain ⟨bytes, hbytes, hcontent, _⟩ := bytes_of_window hfront hwindow
      exact ⟨bytes, hbytes, fun _ => hcontent.symm⟩
    · cases hwindow
  · obtain ⟨bytes, hbytes, rfl⟩ := ok_of_map h
    exact ⟨bytes, hbytes, Text.own_content⟩

theorem textAt_withFastPath (hsource : doc.SourceInFront) (pointer length : Nat) :
    ((doc.withFastPath true).textAt pointer length).map Text.content =
      ((doc.withFastPath false).textAt pointer length).map Text.content := by
  have hoff : (doc.withFastPath false).textAt pointer length =
      (fun bytes => Text.own (Utf8.decode bytes)) <$> doc.bytes pointer length := by
    unfold textAt
    rw [windowFor?_withFastPath_false]
    rfl
  rw [hoff]
  unfold textAt
  split
  · rename_i window hwindow
    unfold windowFor? at hwindow
    split at hwindow
    · have hwindow : doc.window? pointer length = some window := hwindow
      obtain ⟨bytes, hbytes, hcontent, hsize⟩ := bytes_of_window hsource hwindow
      rw [hbytes]
      change Except.ok window.content = .ok (Text.own (Utf8.decode bytes)).content
      rw [hcontent, Text.own_content hsize]
    · cases hwindow
  · rfl

theorem text_withFastPath (hsource : doc.SourceInFront) (pos : Nat) :
    ((doc.withFastPath true).text pos).map Text.content =
      ((doc.withFastPath false).text pos).map Text.content := by
  rw [text_eq, text_eq]
  have hlength : ∀ on, (doc.withFastPath on).word ((doc.withFastPath on).offset pos 8) =
      doc.word (doc.offset pos 8) := fun _ => rfl
  have hpointer : ∀ on, (doc.withFastPath on).word pos = doc.word pos := fun _ => rfl
  simp only [hlength, hpointer]
  cases doc.word (doc.offset pos 8) with
  | error f => rfl
  | ok length =>
    by_cases hzero : length = 0
    · subst hzero
      rfl
    · cases doc.word pos with
      | error f => simp only [bind, Except.bind, hzero, if_false]
      | ok pointer =>
        have hat := textAt_withFastPath hsource pointer length
        simpa only [bind, Except.bind, hzero, if_false] using hat

theorem text_lossy (hsource : doc.SourceInFront ∨ doc.options.asciiFastPath = false)
    {pos length : Nat} {text : Text} (hlength : doc.word (doc.offset pos 8) = .ok length)
    (hnonempty : length ≠ 0) (h : doc.text pos = .ok text) :
    ∃ pointer, doc.word pos = .ok pointer ∧ pointer + length ≤ doc.size ∧
      ((Utf8.decode ((doc.buffer.toList.drop pointer).take length)).utf8ByteSize < wordModulus →
        text.content = Utf8.decode ((doc.buffer.toList.drop pointer).take length)) := by
  rw [text_eq, hlength] at h
  simp only [bind, Except.bind, hnonempty, if_false] at h
  cases hpointer : doc.word pos with
  | error f =>
    rw [hpointer] at h
    cases h
  | ok pointer =>
    rw [hpointer] at h
    obtain ⟨bytes, hbytes, hcontent⟩ := textAt_content hsource h
    have hle : pointer + length ≤ doc.size := by
      obtain ⟨_, hcheck, _⟩ := ok_of_bind hbytes
      exact check_ok hcheck
    rw [bytes_of_le hle] at hbytes
    cases hbytes
    exact ⟨pointer, rfl, hle, hcontent⟩

/-- The ways of decoding the string at an offset agree. -/
structure StringAgrees (doc : Document) (pos : Nat) : Prop where
  /-- The threshold shows neither in a text nor in a fault. -/
  threshold : ∀ n, (doc.withThreshold n).text pos = doc.text pos
  /-- Nor does it show whether a string is a window, if the source stands at the front. -/
  fastPath : doc.SourceInFront →
    ((doc.withFastPath true).text pos).map Text.content =
      ((doc.withFastPath false).text pos).map Text.content
  /-- A string that is not empty lies in the buffer, and is the lossy decoding of its bytes unless
  that is too long to be measured. -/
  lossy : doc.SourceInFront ∨ doc.options.asciiFastPath = false →
    ∀ {length text}, doc.word (doc.offset pos 8) = .ok length → length ≠ 0 →
      doc.text pos = .ok text →
        ∃ pointer, doc.word pos = .ok pointer ∧ pointer + length ≤ doc.size ∧
          ((Utf8.decode ((doc.buffer.toList.drop pointer).take length)).utf8ByteSize <
              wordModulus →
            text.content = Utf8.decode ((doc.buffer.toList.drop pointer).take length))
  /-- A session reads the string as its document has it. -/
  session : ∀ {s : Session}, s.document = doc → ∀ field,
    s.exec (Session.decode field .text pos) = ((doc.text pos).map Datum.text, s)

/-- Neither option changes what a string is read as, and what it is read as is the lossy decoding of
its bytes. -/
theorem strings_agree (doc : Document) (pos : Nat) : doc.StringAgrees pos where
  threshold n := doc.text_withThreshold n pos
  fastPath hsource := text_withFastPath hsource pos
  lossy hsource _ _ hlength hnonempty h := text_lossy hsource hlength hnonempty h
  session {s} hdoc field := by
    rw [Session.exec_decode, hdoc]
    cases h : doc.text pos with
    | error f => simp only [locate, h]; rfl
    | ok text => simp only [locate, h]; rfl

/-- A source of two bytes, padded to eight, and the header of a string that is all of it. -/
def twoBytes : Document :=
  ⟨#[97, 98, 0, 0, 0, 0, 0, 0, 0, 0, 0, 0, 0, 0, 0, 0, 2, 0, 0, 0], "ab", true, 2, {}, .saturating⟩

theorem twoBytes_sourceInFront : twoBytes.SourceInFront := by
  refine ⟨by decide, rfl, ?_⟩
  rw [Utf8.encode_eq]
  decide

/-- The string is a window with the one option and a copy with the other, and reads the same. -/
theorem strings_agree_window :
    (twoBytes.withFastPath true).text 8 = .ok ⟨"ab", true⟩ ∧
      ((twoBytes.withFastPath true).text 8).map Text.content =
        ((twoBytes.withFastPath false).text 8).map Text.content :=
  ⟨by decide, (strings_agree twoBytes 8).fastPath twoBytes_sourceInFront⟩

end Document

end FlatSyntax
