import Mathlib.Algebra.Group.Int.Defs
import Mathlib.Algebra.Group.Nat.Defs
import Mathlib.Data.Int.Init

/-!
# Checked arithmetic and time

`utils/math/safe_math.go`: arithmetic on `uint64` that reports an overflow instead of
wrapping; the values are natural numbers here. A `time.Time` is the number of nanoseconds
since Go's zero time. `time.Unix` adds the offset of the Unix epoch in wrapping 64-bit
arithmetic, so a `uint64` far out of range becomes a time in the past.
-/

namespace SavannahNode

/-- `math.MaxUint64`. -/
def maxUint64 : Nat := 2 ^ 64 - 1

/-- `math.Add64`, `none` for `errOverflow`. -/
def add64 (a b : Nat) : Option Nat := if a > maxUint64 - b then none else some (a + b)

/-- `math.Sub64`, `none` for `errOverflow`. -/
def sub64 (a b : Nat) : Option Nat := if a < b then none else some (a - b)

/-- `math.Mul64`, `none` for `errOverflow`. -/
def mul64 (a b : Nat) : Option Nat := if b ≠ 0 ∧ a > maxUint64 / b then none else some (a * b)

/-- `math.Diff64`. -/
def diff64 (a b : Nat) : Nat := max a b - min a b

theorem add64_eq_some {a b c : Nat} (h : add64 a b = some c) : c = a + b := by
  rw [add64] at h
  split at h
  · cases h
  · exact (Option.some.inj h).symm

theorem sub64_eq_some {a b c : Nat} (h : sub64 a b = some c) : b ≤ a ∧ c = a - b := by
  rw [sub64] at h
  split at h
  · cases h
  · exact ⟨Nat.le_of_not_lt ‹_›, (Option.some.inj h).symm⟩

theorem mul64_eq_some {a b c : Nat} (h : mul64 a b = some c) : c = a * b := by
  rw [mul64] at h
  split at h
  · cases h
  · exact (Option.some.inj h).symm

/-- A `time.Time`, in nanoseconds. -/
abbrev Time := Int

/-- A `time.Duration`, in nanoseconds. -/
abbrev Duration := Int

namespace Time

/-- `time.Second`. -/
def second : Duration := 1000000000

/-- The Unix epoch in seconds since the zero time. -/
def unixToInternal : Int := 62135596800

/-- `time.Unix(int64(sec), 0)` of a `uint64`. -/
def unix (sec : Nat) : Time := Int.bmod (sec + unixToInternal) (2 ^ 64) * second

/-- The largest `time.Duration`. -/
def maxDuration : Duration := 2 ^ 63 - 1

/-- `Time.Add` of a duration that is not negative: the seconds saturate. -/
def add (t : Time) (d : Duration) : Time :=
  min ((t + d) / second) (2 ^ 63 - 1) * second + (t + d) % second

/-- `uint64(t.Unix())`. -/
def unixSeconds (t : Time) : Nat := ((t / second - unixToInternal) % 2 ^ 64).toNat

/-- `Time.Sub`: the difference, saturated to the range of a duration. -/
def sub (t u : Time) : Duration := max (-(2 ^ 63)) (min maxDuration (t - u))

end Time

end SavannahNode
