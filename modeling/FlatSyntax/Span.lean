/-!
# Source ranges

A range of bytes of the source text, from its start up to its end.
-/

namespace FlatSyntax

/-- A range of the source text, in bytes. -/
structure Span where
  /-- The offset of the first byte. -/
  start : Nat
  /-- The offset after the last byte. -/
  stop : Nat
  deriving DecidableEq, Repr

namespace Span

instance : Inhabited Span := ⟨⟨0, 0⟩⟩

/-- The number of bytes; an inverted range has none. -/
def length (s : Span) : Nat := s.stop - s.start

/-- Whether the range has no bytes. -/
def isEmpty (s : Span) : Bool := s.length == 0

/-- Ranges are ordered by start, then by end. -/
def compare (s t : Span) : Ordering :=
  (Ord.compare s.start t.start).then (Ord.compare s.stop t.stop)

end Span

end FlatSyntax
