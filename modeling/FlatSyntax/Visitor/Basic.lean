import FlatSyntax.Visitor.Plan

/-!
# Visitors

A visitor is a plan together with what its walks have found out about layouts. Whether a layout can
hold a needed node is computed once; the answer is kept for the rest of the walk, for later walks and
for walks over other documents. It can be kept because it depends on the plan alone, and a visitor
is one whose kept answers are those of its plan.
-/

namespace FlatSyntax

/-- A plan with the answers that are known for layouts. -/
structure Visitor where
  /-- The plan. -/
  plan : Plan
  /-- For each layout asked about so far, whether a value of it can hold a needed node. -/
  known : List (Layout × Bool) := []
  /-- The answers are those of the plan. -/
  known_eq : ∀ entry ∈ known, entry.2 = plan.reaches entry.1 := by simp

namespace Visitor

/-- Reads the keys of a visitor that has not walked yet. -/
def compile (keys : List String) : Except Fault Visitor := do
  return { plan := ← Plan.compile keys }

/-- The visitor with one more answer. -/
def learn (v : Visitor) (layout : Layout) : Visitor where
  plan := v.plan
  known := (layout, v.plan.reaches layout) :: v.known
  known_eq := by
    intro entry h
    rcases List.mem_cons.mp h with rfl | h
    · rfl
    · exact v.known_eq entry h

/-- Whether a value of a layout can hold a needed node, and the visitor that knows it from now on. -/
def reaches (v : Visitor) (layout : Layout) : Bool × Visitor :=
  match v.known.lookup layout with
  | some answer => (answer, v)
  | none => (v.plan.reaches layout, v.learn layout)

end Visitor

end FlatSyntax
