import Mathlib.Data.List.Basic

/-!
# The LRU cache

`cache.LRU`: a bounded cache that drops the entry that was not used for the longest time. The
entry used last is at the end of the list. A size that is not positive counts as one.
-/

namespace SavannahNode

/-- `cache.LRU`. -/
structure LRU (κ α : Type) where
  size : Int
  entries : List (κ × α)

namespace LRU

variable {κ α : Type} [DecidableEq κ]

variable (c : LRU κ α) (key : κ)

/-- The size after `init`. -/
def bound : Nat := if c.size ≤ 0 then 1 else c.size.toNat

/-- `resize`. -/
def resize : LRU κ α := { c with entries := c.entries.drop (c.entries.length - c.bound) }

/-- The entries of other keys. -/
def others : List (κ × α) := c.entries.filter (·.1 ≠ key)

/-- `Put`. -/
def put (value : α) : LRU κ α :=
  let c := c.resize
  { c with
    entries :=
      if c.entries.any (·.1 = key) then c.others key ++ [(key, value)]
      else if c.entries.length ≥ c.bound then c.entries.drop 1 ++ [(key, value)]
      else c.entries ++ [(key, value)] }

/-- `Get`. -/
def get : Option α × LRU κ α :=
  let c := c.resize
  match c.entries.find? (·.1 = key) with
  | some e => (some e.2, { c with entries := c.others key ++ [e] })
  | none => (none, c)

end LRU

end SavannahNode
