/-!
# Quoted text

Two ways of writing a text between quotes. In plain values the quote, the backslash and the three
common blanks have short escapes, and control characters and the two line separators are written by
code point in four digits. In listings control characters are written by code point between braces.
-/

namespace FlatSyntax.Text

/-- Whether a character is a control character: below the blank, or from delete through the second
block of controls. -/
def isControl (c : Char) : Bool := c.toNat < 0x20 || (0x7f ≤ c.toNat && c.toNat < 0xa0)

/-- A code point in at least four upper-case hexadecimal digits. -/
def hex4 (n : Nat) : List Char :=
  let digits := (Nat.toDigits 16 n).map Char.toUpper
  List.replicate (4 - digits.length) '0' ++ digits

/-- A character as it stands in the quoted text of a plain value. -/
def escape (c : Char) : List Char :=
  if c = '"' then ['\\', '"']
  else if c = '\\' then ['\\', '\\']
  else if c = '\n' then ['\\', 'n']
  else if c = '\r' then ['\\', 'r']
  else if c = '\t' then ['\\', 't']
  else if c.toNat = 0x2028 || c.toNat = 0x2029 || isControl c then '\\' :: 'u' :: hex4 c.toNat
  else [c]

/-- A text between quotes, as it stands in a plain value. -/
def quoted (text : String) : List Char := '"' :: text.toList.flatMap escape ++ ['"']

/-- A character as it stands in a listing. -/
def escapeListed (c : Char) : List Char :=
  if c = '"' then ['\\', '"']
  else if c = '\\' then ['\\', '\\']
  else if c = '\n' then ['\\', 'n']
  else if c = '\r' then ['\\', 'r']
  else if c = '\t' then ['\\', 't']
  else if c.toNat = 0 then ['\\', '0']
  else if isControl c then ['\\', 'u', '\x7b'] ++ Nat.toDigits 16 c.toNat ++ ['\x7d']
  else [c]

/-- A text between quotes, as it stands in a listing. -/
def listed (text : String) : String :=
  String.ofList ('"' :: text.toList.flatMap escapeListed ++ ['"'])

/-- Texts as a listing, such as `["A", "B"]`. -/
def listing (texts : List String) : String := "[" ++ ", ".intercalate (texts.map listed) ++ "]"

end FlatSyntax.Text
