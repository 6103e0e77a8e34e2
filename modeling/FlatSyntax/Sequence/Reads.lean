import FlatSyntax.Number.Width

/-!
# Reading sequences

A sequence is a number of elements and a way of getting each. The reads of a whole sequence are in
terms of these two, element by element from the front, and stop at the first element that fails.
-/

namespace FlatSyntax

/-- A sequence as reads see it: how many elements there are and how to get one. -/
structure Elements (m : Type → Type) (α : Type) where
  /-- The number of elements. -/
  count : Nat
  /-- The element at an index below the number of elements. -/
  get : Nat → m α

/-- One end of a range of indices. -/
inductive Bound where
  /-- The range goes up to the end of the sequence. -/
  | unbounded
  /-- The index is in the range. -/
  | included (index : Nat)
  /-- The index is just outside the range. -/
  | excluded (index : Nat)
  deriving DecidableEq, Repr

namespace Bound

/-- The index after another; the largest index is its own successor. -/
def next (index : Nat) : Nat := min (index + 1) largestLong

/-- The first index of a range that starts at a bound. -/
def first : Bound → Nat
  | .unbounded => 0
  | .included index => index
  | .excluded index => next index

/-- The index after the last of a range of `count` elements that stops at a bound. -/
def stop (count : Nat) : Bound → Nat
  | .unbounded => count
  | .included index => next index
  | .excluded index => index

end Bound

namespace Elements

variable {m : Type → Type} [Monad m] {α β : Type}

/-- The element at an index, or nothing past the end. -/
def get? (s : Elements m α) (index : Nat) : m (Option α) :=
  if index < s.count then some <$> s.get index else pure none

/-- The element at an index, counted from the end if it is negative. -/
def at? (s : Elements m α) (index : Int) : m (Option α) :=
  if 0 ≤ index then s.get? index.toNat
  else if index.natAbs ≤ s.count then s.get? (s.count - index.natAbs)
  else pure none

/-- The first element. -/
def first? (s : Elements m α) : m (Option α) := s.get? 0

/-- The last element. -/
def last? (s : Elements m α) : m (Option α) :=
  if s.count = 0 then pure none else s.get? (s.count - 1)

/-- All elements. -/
def toList (s : Elements m α) : m (List α) := (List.range s.count).mapM s.get

/-- What a function makes of each element, made before the next one is read. -/
def map (s : Elements m α) (f : α → β) : m (List β) :=
  (List.range s.count).mapM fun index => do return f (← s.get index)

/-- Combines the elements from the left, each before the next one is read. -/
def fold (s : Elements m α) (f : β → α → β) (start : β) : m β :=
  (List.range s.count).foldlM (fun sum index => do return f sum (← s.get index)) start

/-- The elements that pass a test, collected one by one. -/
def filter (s : Elements m α) (p : α → Bool) : m (List α) := do
  let keep (kept : Array α) (element : α) := if p element then kept.push element else kept
  return (← s.fold keep #[]).toList

/-- The first of the elements at the given indices that passes a test, with its index. Later
elements are not read. -/
def search (s : Elements m α) (p : α → Bool) : List Nat → m (Option (Nat × α))
  | [] => pure none
  | index :: rest => do
    let element ← s.get index
    if p element then return some (index, element) else s.search p rest

/-- The first element that passes a test. -/
def find? (s : Elements m α) (p : α → Bool) : m (Option α) := do
  return (← s.search p (List.range s.count)).map Prod.snd

/-- The index of the first element that passes a test. -/
def position? (s : Elements m α) (p : α → Bool) : m (Option Nat) := do
  return (← s.search p (List.range s.count)).map Prod.fst

/-- The elements in a range, as far as the sequence goes. -/
def slice (s : Elements m α) (start stop : Bound) : m (List α) :=
  let low := min start.first s.count
  let high := min (stop.stop s.count) s.count
  ((List.range high).drop low).mapM s.get

/-- The elements from the back to the front. -/
def reversed (s : Elements m α) : m (List α) := do return (← s.toList).reverse

/-- The elements in order; elements that are not strictly ordered keep their places. -/
def sorted (s : Elements m α) (le : α → α → Bool) : m (List α) := do
  return (← s.toList).mergeSort le

/-- The elements of two sequences, one after the other. -/
def concat (s t : Elements m α) : m (List α) := do
  let front ← s.toList
  return front ++ (← t.toList)

/-! ## Loops

Nothing but the reads has an effect, so a loop comes to reading all elements first. -/

section Loops

variable [LawfulMonad m] (s : Elements m α)

theorem map_eq (f : α → β) : s.map f = do return (← s.toList).map f := by
  unfold map toList
  induction List.range s.count with
  | nil => simp
  | cons index rest ih =>
    simp only [List.mapM_cons, ih, bind_assoc, pure_bind, List.map_cons]

theorem fold_eq (f : β → α → β) (start : β) :
    s.fold f start = do return (← s.toList).foldl f start := by
  unfold fold toList
  induction List.range s.count generalizing start with
  | nil => simp
  | cons index rest ih =>
    simp only [List.foldlM_cons, List.mapM_cons, ih, bind_assoc, pure_bind, List.foldl_cons]

theorem filter_eq (p : α → Bool) : s.filter p = do return (← s.toList).filter p := by
  have hkept : ∀ (l : List α) (kept : Array α),
      (l.foldl (fun kept element => if p element then kept.push element else kept) kept).toList =
        kept.toList ++ l.filter p := by
    intro l
    induction l with
    | nil => simp
    | cons element rest ih =>
      intro kept
      rw [List.foldl_cons, ih, List.filter_cons]
      split <;> simp
  unfold filter
  simp only [fold_eq, bind_assoc, pure_bind, hkept]
  simp

end Loops

end Elements

end FlatSyntax
