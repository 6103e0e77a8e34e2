/-!
# Cutting text by bytes

Offsets into a text count the bytes of its UTF-8 form. A cut is defined only between offsets that
fall between characters.
-/

namespace FlatSyntax.Text

/-- Splits characters after `bytes` bytes, if that is not inside a character or past the end. -/
def splitAtByte? : Nat → List Char → Option (List Char × List Char)
  | 0, chars => some ([], chars)
  | _ + 1, [] => none
  | bytes + 1, c :: rest =>
    if c.utf8Size ≤ bytes + 1 then
      (splitAtByte? (bytes + 1 - c.utf8Size) rest).map fun (before, after) => (c :: before, after)
    else none

/-- The part of a text of `length` bytes from byte `start` on, if both ends fall between
characters. -/
def cut? (text : String) (start length : Nat) : Option String := do
  let (_, after) ← splitAtByte? start text.toList
  let (part, _) ← splitAtByte? length after
  return String.ofList part

end FlatSyntax.Text
