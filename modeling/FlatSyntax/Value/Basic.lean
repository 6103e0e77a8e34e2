import FlatSyntax.Entries
import FlatSyntax.Number.Double

/-!
# Plain values

The tree that a view is projected to: nodes and records become objects, sequences become arrays.
The entries of an object are sorted by key.
-/

namespace FlatSyntax

/-- A plain value, with no ties to the buffer it came from. -/
inductive Value where
  /-- An absent value. -/
  | null
  /-- A truth value. -/
  | boolean (b : Bool)
  /-- A number. -/
  | number (x : Double)
  /-- A text, or the spelling of a choice. -/
  | string (text : String)
  /-- A sequence. -/
  | array (items : List Value)
  /-- A node or a record: entries sorted by key. -/
  | object (entries : List (String × Value))
  deriving Repr

namespace Value

instance : Inhabited Value := ⟨.null⟩

/-- A natural number as a value. -/
def ofNat (n : Nat) : Value := .number (Double.ofNat n)

/-- Whether the value is absent. -/
def isNull : Value → Bool
  | .null => true
  | _ => false

/-- The truth value, if it is one. -/
def boolean? : Value → Option Bool
  | .boolean b => some b
  | _ => none

/-- The number, if it is one. -/
def number? : Value → Option Double
  | .number x => some x
  | _ => none

/-- The text, if it is one. -/
def string? : Value → Option String
  | .string text => some text
  | _ => none

/-- The items, if it is an array. -/
def array? : Value → Option (List Value)
  | .array items => some items
  | _ => none

/-- The entries, if it is an object. -/
def object? : Value → Option (List (String × Value))
  | .object entries => some entries
  | _ => none

/-- The value under a key of an object. -/
def get? (value : Value) (key : String) : Option Value :=
  value.object?.bind fun entries => Entries.get? entries key

/-- The `"type"` tag of a node object. -/
def typeTag? (value : Value) : Option String := (value.get? "type").bind string?

mutual

/-- Equality of values, with numbers compared as numbers: a NaN differs from everything, and the two
zeros are equal. -/
def equal : Value → Value → Bool
  | .null, .null => true
  | .boolean a, .boolean b => a == b
  | .number x, .number y => x.equal y
  | .string s, .string t => s == t
  | .array items, .array others => equalItems items others
  | .object entries, .object others => equalEntries entries others
  | _, _ => false

/-- Equality of lists of values. -/
def equalItems : List Value → List Value → Bool
  | [], [] => true
  | item :: items, other :: others => item.equal other && equalItems items others
  | _, _ => false

/-- Equality of lists of entries. -/
def equalEntries : List (String × Value) → List (String × Value) → Bool
  | [], [] => true
  | (key, item) :: entries, (key', other) :: others =>
    key == key' && item.equal other && equalEntries entries others
  | _, _ => false

end

end Value

end FlatSyntax
