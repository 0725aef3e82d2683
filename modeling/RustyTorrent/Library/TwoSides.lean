import Mathlib.Tactic.TypeStar

/- The two sides of anything that has two, and what they hold when one changes and hands
   something to the other. -/
namespace TwoSides

inductive Side where
  | left
  | right
  deriving DecidableEq, Repr

def Side.other : Side → Side
  | .left => .right
  | .right => .left

variable {α : Type*}

/-- One side is now this, and the other has taken what it was handed. -/
def exchange (both : Side → α) (side : Side) (one : α) (takes : α → α) : Side → α :=
  fun here => if here = side then one else takes (both here)

@[simp] theorem other_other (side : Side) : side.other.other = side := by
  cases side <;> rfl

theorem other_ne (side : Side) : side.other ≠ side := by
  cases side <;> decide

theorem eq_or_other (here side : Side) : here = side ∨ here = side.other := by
  cases here <;> cases side <;> decide

section Exchanging
variable (both : Side → α) (side : Side) (one : α) (takes : α → α)

@[simp] theorem exchange_same : exchange both side one takes side = one := if_pos rfl

@[simp] theorem exchange_other :
    exchange both side one takes side.other = takes (both side.other) :=
  if_neg (other_ne side)

end Exchanging

end TwoSides
