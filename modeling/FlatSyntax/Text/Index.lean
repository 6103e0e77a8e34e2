import FlatSyntax.Number.Width

/-!
# Indices written as text

A text denotes an index iff it is the index's decimal text: digits only, no leading zero, and a
value that fits in 64 bits.
-/

namespace FlatSyntax.Text

/-- The value of a digit. -/
def digit? (c : Char) : Option Nat :=
  if '0' ≤ c ∧ c ≤ '9' then some (c.toNat - '0'.toNat) else none

/-- Reads digits onto a number. -/
def digitsOnto? : Nat → List Char → Option Nat
  | n, [] => some n
  | n, c :: rest => do digitsOnto? (10 * n + (← digit? c)) rest

/-- The index that a text denotes, if it is the decimal text of a number below `2 ^ 64`. -/
def index? (text : String) : Option Nat := do
  match text.toList with
  | [] => none
  | c :: rest =>
    guard (c ≠ '0' ∨ rest = [])
    let n ← digitsOnto? 0 (c :: rest)
    guard (n < longModulus)
    return n

end FlatSyntax.Text
