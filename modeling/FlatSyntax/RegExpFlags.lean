/-!
# Flags of regular expressions

One bit for each flag. The flags are written in alphabetical order, which is not the order of the
bits.
-/

namespace FlatSyntax

/-- The flags of a regular expression. -/
structure RegExpFlags where
  /-- The bits. -/
  bits : UInt8
  deriving DecidableEq, Repr

namespace RegExpFlags

/-- The letters and their bits, in the order in which they are written. -/
def letters : List (Char × UInt8) :=
  [('d', 64), ('g', 1), ('i', 2), ('m', 4), ('s', 8), ('u', 16), ('v', 128), ('y', 32)]

/-- Whether the flag with the given letter is set. -/
def contains (flags : RegExpFlags) (letter : Char) : Bool :=
  letters.any fun (l, bit) => l == letter && flags.bits &&& bit != 0

/-- The letters of the flags that are set. -/
def text (flags : RegExpFlags) : String :=
  String.ofList ((letters.filter fun (_, bit) => flags.bits &&& bit != 0).map Prod.fst)

end RegExpFlags

end FlatSyntax
