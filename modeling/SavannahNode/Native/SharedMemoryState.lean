import Mathlib.Data.List.Sort
import SavannahNode.ForStd.LinkedList
import SavannahNode.Native.Database

/-!
# Shared memory keys by trait

`getKeys` of `chains/atomic/state.go`. A trait's `linkeddb` is the list it holds (see
`Spec.LinkedDBRun`), and a key stands for its own hash.
-/

namespace SavannahNode.SharedMemory

/-- The `indexDB`: the keys that possess each trait. -/
structure Index where
  list : Bytes → List (Bytes × Bytes)
  nodup : ∀ trait, ((list trait).map Prod.fst).Nodup

/-- The loop of `appendTraitKeys`: the keys found, what is left of the limit, and the last key. -/
def appendKeys (keys : List Bytes) (limit : Nat) (lastKey : Bytes) :
    List Bytes → List Bytes × Nat × Bytes
  | [] => (keys, limit, lastKey)
  | key :: iter =>
    if limit = 0 then (keys, limit, lastKey)
    else if keys.contains key then appendKeys keys limit key iter
    else appendKeys (keys ++ [key]) (limit - 1) key iter

namespace Index

variable (index : Index)

/-- The keys that `NewIteratorWithStart` goes through. -/
def iterator (trait start : Bytes) : List Bytes :=
  (LinkedList.suffixFrom start (index.list trait)).map Prod.fst

def appendTraitKeys (keys : List Bytes) (limit : Nat) (trait startKey : Bytes) :
    List Bytes × Nat × Bytes :=
  appendKeys keys limit startKey (index.iterator trait startKey)

/-- What `getKeys` returns. -/
structure Page where
  keys : List Bytes
  lastTrait : Bytes
  lastKey : Bytes

/-- The loop of `getKeys` over the sorted traits. -/
def getKeysLoop (startTrait startKey : Bytes) (limit : Nat) (page : Page) : List Bytes → Page
  | [] => page
  | trait :: traits =>
    -- Skip the trait, if we have already paginated past it.
    if trait < startTrait then getKeysLoop startTrait startKey limit page traits
    else
      -- Past `startTrait`, `startKey = nil` indexes all of `trait`.
      let startKey := if startTrait < trait then [] else startKey
      let (keys, limit, lastKey) := index.appendTraitKeys page.keys limit trait startKey
      if limit = 0 then ⟨keys, trait, lastKey⟩
      else getKeysLoop startTrait startKey limit ⟨keys, trait, lastKey⟩ traits

def getKeys (traits : List Bytes) (startTrait startKey : Bytes) (limit : Nat) : Page :=
  index.getKeysLoop startTrait startKey limit ⟨[], startTrait, startKey⟩
    (traits.insertionSort (· ≤ ·))

end Index

end SavannahNode.SharedMemory
