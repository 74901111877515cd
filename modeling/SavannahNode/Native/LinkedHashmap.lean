/-!
# Linked hash map

`linkedHashmap` (`utils/linkedhashmap/linkedhashmap.go`): a map that keeps its entries from the
oldest to the newest, and an iterator over them that allows what it has returned to be deleted.
-/

namespace SavannahNode

/-- `linkedHashmap`: `entryList`, the oldest entry first. `entryMap` finds the element of a key
    in it. -/
abbrev LinkedHashmap (κ α : Type) := List (κ × α)

namespace LinkedHashmap

variable {κ α : Type} [DecidableEq κ]

/-- `get`. -/
def get (lh : LinkedHashmap κ α) (key : κ) : Option α := (lh.find? (·.1 = key)).map Prod.snd

/-- `delete`. -/
def delete (lh : LinkedHashmap κ α) (key : κ) : LinkedHashmap κ α := lh.eraseP (·.1 = key)

/-- `put`: the entry of the key moves to the back, or a new one is pushed there. -/
def put (lh : LinkedHashmap κ α) (key : κ) (value : α) : LinkedHashmap κ α :=
  lh.delete key ++ [(key, value)]

/-- `iterator`. The element `next` points to is given by its key. -/
structure Iter (κ α : Type) where
  entry : Option (κ × α) := none
  next : Option κ := none
  initialized : Bool := false
  exhausted : Bool := false

/-- `Next`. -/
def Iter.advance (it : Iter κ α) (lh : LinkedHashmap κ α) : Bool × Iter κ α :=
  if it.exhausted then (false, { it with entry := none, next := none })
  else
    let next := if it.initialized then it.next else lh.head?.map Prod.fst
    -- elements that have not been iterated over are not deleted: the one of `next` is there
    match next.map fun key => lh.dropWhile (·.1 ≠ key) with
    | some (entry :: rest) =>
      (true, ⟨some entry, rest.head?.map Prod.fst, true, rest.isEmpty⟩)
    | _ => (false, ⟨none, none, true, true⟩)

end LinkedHashmap

end SavannahNode
