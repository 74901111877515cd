/-!
# Two-element arrays

`Pair α` is the array type `[2]T` indexed by a bit: `get false` is element `0`,
`get true` is element `1`.
-/

namespace SavannahNode

/-- A two-element array, indexed by a bit. -/
structure Pair (α : Type u) where
  zero : α
  one : α
deriving DecidableEq, Repr

namespace Pair

variable {α : Type u}

section

variable (p : Pair α) (bit : Bool) (a : α)

/-- The array with the same value twice. -/
def both : Pair α := ⟨a, a⟩

/-- The element at index `bit`. -/
def get : α := if bit then p.one else p.zero

/-- Overwrite the element at index `bit`. -/
def set : Pair α := if bit then { p with one := a } else { p with zero := a }

@[simp] theorem get_both (bit : Bool) : (both a).get bit = a := by
  cases bit <;> rfl

@[simp] theorem get_set_self : (p.set bit a).get bit = a := by
  cases bit <;> rfl

@[simp] theorem get_set_not : (p.set bit a).get (!bit) = p.get (!bit) := by
  cases bit <;> rfl

end

theorem get_set (p : Pair α) (bit bit' : Bool) (a : α) :
    (p.set bit a).get bit' = if bit' = bit then a else p.get bit' := by
  cases bit <;> cases bit' <;> rfl

end Pair

end SavannahNode
