/-!
# Widths of numbers

Offsets, lengths and measures are numbers of 32 bits, and indices are numbers of 64 bits. Arithmetic
on them is arithmetic of natural numbers that stops at the largest number or wraps around.
-/

namespace FlatSyntax

/-- How many numbers have 32 bits. -/
def wordModulus : Nat := 4294967296

/-- The largest number of 32 bits. -/
def largestWord : Nat := 4294967295

/-- How many numbers have 64 bits. -/
def longModulus : Nat := 18446744073709551616

/-- The largest number of 64 bits. -/
def largestLong : Nat := 18446744073709551615

end FlatSyntax
