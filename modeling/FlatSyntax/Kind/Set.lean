import FlatSyntax.Kind.Basic

/-!
# Sets of node kinds

A set of kinds is packed into two words of 64 bits: the kind at position `i` of the declaration
order is bit `i % 64` of word `i / 64`. Membership is a bit test and two sets share a kind iff one
of the words has a bit in common, which is what pruning a walk rests on.
-/

namespace FlatSyntax

/-- A set of node kinds, one bit for each kind. -/
structure KindSet where
  /-- Bits of the first 64 kinds. -/
  low : BitVec 64
  /-- Bits of the remaining kinds. -/
  high : BitVec 64
  deriving DecidableEq, Repr

namespace KindSet

/-- The set without members. -/
def empty : KindSet := ⟨0#64, 0#64⟩

instance : EmptyCollection KindSet := ⟨empty⟩

instance : Inhabited KindSet := ⟨empty⟩

/-- Whether `kind` is a member. -/
def contains (s : KindSet) (kind : NodeKind) : Bool :=
  if kind.index < 64 then s.low.getLsbD kind.index else s.high.getLsbD (kind.index - 64)

/-- The set with `kind` added. -/
def insert (s : KindSet) (kind : NodeKind) : KindSet :=
  if kind.index < 64 then { s with low := s.low ||| BitVec.twoPow 64 kind.index }
  else { s with high := s.high ||| BitVec.twoPow 64 (kind.index - 64) }

/-- Whether `kind` is new to the set, and the set with `kind` added. -/
def add (s : KindSet) (kind : NodeKind) : Bool × KindSet := (!s.contains kind, s.insert kind)

/-- The members of either set. -/
def union (s t : KindSet) : KindSet := ⟨s.low ||| t.low, s.high ||| t.high⟩

/-- Whether the two sets share a kind. -/
def intersects (s t : KindSet) : Bool := s.low &&& t.low != 0#64 || s.high &&& t.high != 0#64

/-- Whether there is no member. -/
def isEmpty (s : KindSet) : Bool := s.low == 0#64 && s.high == 0#64

/-- The number of bits set in a word. -/
def ones (word : BitVec 64) : Nat := (List.range 64).countP (word.getLsbD ·)

/-- The number of members. -/
def size (s : KindSet) : Nat := ones s.low + ones s.high

/-- The members, in declaration order. -/
def toList (s : KindSet) : List NodeKind := NodeKind.all.filter s.contains

/-- The set of the listed kinds. -/
def ofList (kinds : List NodeKind) : KindSet := kinds.foldl insert empty

/-- The members by name between braces, as in `{Program, Hashbang}`. -/
def render (s : KindSet) : String :=
  "\x7b" ++ ", ".intercalate (s.toList.map NodeKind.name) ++ "\x7d"

end KindSet

end FlatSyntax
