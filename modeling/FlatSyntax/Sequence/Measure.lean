import FlatSyntax.Document.Datum

/-!
# Measuring elements

Every element of a sequence has a measure, a number of 32 bits by which elements of any type are
tested, folded and sorted: where a node starts in the source, where a record lies in the buffer, and
for other elements what they amount to. An absent element has the largest measure.
-/

namespace FlatSyntax

/-- The measure of an element. -/
def Document.measure {τ : Type} (doc : Document) : Datum (Item τ) → Nat
  | .object item | .variant _ _ item =>
    match item.place with
    | .view (.node _) pos => ((doc.span pos).toOption.map Span.start).getD 0
    | .view (.record _) pos => pos
    | .sequence _ _ => 0
  | .span s => s.start
  | .word n => n
  | .text t => t.content.utf8ByteSize
  | .absent => largestWord
  | _ => 0

/-- A test of a measure. -/
inductive MeasureTest where
  /-- At least this. -/
  | atLeast (n : Nat)
  /-- Just this. -/
  | equal (n : Nat)
  /-- This rest by this divisor. -/
  | residue (divisor rest : Nat)
  deriving DecidableEq, Repr

/-- Whether a measure passes a test. -/
def MeasureTest.passes : MeasureTest → Nat → Bool
  | .atLeast n, measure => n ≤ measure
  | .equal n, measure => measure == n
  | .residue divisor rest, measure => measure % divisor == rest

/-- How measures are sorted: by their rests by a divisor. -/
structure MeasureOrder where
  /-- The divisor. -/
  divisor : Nat
  /-- Whether the largest rest comes first. -/
  descending : Bool
  deriving DecidableEq, Repr

/-- Whether a measure may stand before another. -/
def MeasureOrder.le (order : MeasureOrder) (a b : Nat) : Bool :=
  if order.descending then b % order.divisor ≤ a % order.divisor
  else a % order.divisor ≤ b % order.divisor

namespace Checksum

/-- The checksum of no measures. -/
def start : Nat := 7

/-- Adds a measure to a checksum. -/
def add (sum measure : Nat) : Nat := (sum * 31 + measure) % wordModulus

end Checksum

end FlatSyntax
