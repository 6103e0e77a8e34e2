import FlatSyntax.Number.Decimal
import FlatSyntax.Text.Quoted
import FlatSyntax.Value.Basic

/-!
# Text of plain values

A plain value is written as JSON without blanks, the entries of objects in order. A number that is
not finite is written as `null`.
-/

namespace FlatSyntax.Value

mutual

/-- The characters of a value's text, in front of others. -/
def charsOnto : Value → List Char → List Char
  | .null, rest => "null".toList ++ rest
  | .boolean b, rest => (if b then "true" else "false").toList ++ rest
  | .number x, rest => (if x.isFinite then x.text else "null").toList ++ rest
  | .string text, rest => Text.quoted text ++ rest
  | .array items, rest => '[' :: itemsOnto items rest
  | .object entries, rest => '\x7b' :: entriesOnto entries rest

/-- The items of an array up to its closing bracket, separated by commas, in front of others. -/
def itemsOnto : List Value → List Char → List Char
  | [], rest => ']' :: rest
  | [item], rest => item.charsOnto (']' :: rest)
  | item :: next :: more, rest => item.charsOnto (',' :: itemsOnto (next :: more) rest)

/-- The entries of an object up to its closing brace, separated by commas, in front of others. -/
def entriesOnto : List (String × Value) → List Char → List Char
  | [], rest => '\x7d' :: rest
  | [(key, item)], rest => Text.quoted key ++ ':' :: item.charsOnto ('\x7d' :: rest)
  | (key, item) :: next :: more, rest =>
    Text.quoted key ++ ':' :: item.charsOnto (',' :: entriesOnto (next :: more) rest)

end

/-- The characters of a value's text. -/
def chars (value : Value) : List Char := value.charsOnto []

/-- The text of a value. -/
def text (value : Value) : String := String.ofList value.chars

end FlatSyntax.Value
