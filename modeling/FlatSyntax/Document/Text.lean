import FlatSyntax.Document.Basic
import FlatSyntax.Text.Cut
import FlatSyntax.Text.Utf8

/-!
# Strings of a document

A string is a pointer and a length. If the source is ASCII and the string lies in it, it is a window
onto the source text; otherwise its bytes are decoded, and bytes that are not UTF-8 are replaced.
-/

namespace FlatSyntax

/-- A string read from a document. -/
structure Text where
  /-- The characters. -/
  content : String
  /-- Whether the string is a window onto the source text. -/
  shared : Bool
  deriving DecidableEq, Repr

/-- A string that is not a window. Its length is a number of 32 bits: of a longer content only the
part up to that many bytes is left, and nothing if the part would end inside a character. -/
def Text.own (content : String) : Text :=
  if content.utf8ByteSize < wordModulus then ⟨content, false⟩
  else ⟨(Text.cut? content 0 (content.utf8ByteSize % wordModulus)).getD "", false⟩

namespace Document

/-- The window of `length` bytes onto the source text, if it is one. Its end is an offset too. -/
def window? (doc : Document) (start length : Nat) : Option Text := do
  guard (start + length ≤ largestWord)
  return ⟨← Text.cut? doc.sourceText start length, true⟩

/-- Decodes the bytes of a string: the ASCII bytes at the front one by one, and all at once from the
first byte that is not ASCII. -/
def decodeBytewise : List UInt8 → List Char
  | [] => []
  | byte :: rest =>
    if byte < 0x80 then Char.ofNat byte.toNat :: decodeBytewise rest
    else Utf8.decodeFrom none (byte :: rest)

/-- Decodes the bytes of a string. -/
def decodeBytes (doc : Document) (bytes : List UInt8) : String :=
  if doc.options.shortTextThreshold < bytes.length then Utf8.decode bytes
  else String.ofList (decodeBytewise bytes)

/-- The string at `pos`. The length is read first; the pointer of an empty string is not read. -/
def text (doc : Document) (pos : Nat) : Except Fault Text := do
  let length ← doc.word (doc.offset pos 8)
  if length = 0 then return ⟨"", false⟩
  let pointer ← doc.word pos
  let window :=
    if doc.sourceIsAscii && doc.options.asciiFastPath && pointer < doc.sourceLength then
      doc.window? pointer length
    else none
  match window with
  | some text => return text
  | none => return .own (doc.decodeBytes (← doc.bytes pointer length))

/-- The source text that a range covers. An inverted range covers nothing, at its start. -/
def sourceOf (doc : Document) (span : Span) : Except Fault Text :=
  match doc.window? span.start span.length with
  | some text => .ok text
  | none => .error (.outOfBounds span.start span.length doc.sourceText.utf8ByteSize)

end Document

end FlatSyntax
