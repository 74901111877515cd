import SavannahNode.Native.Ids
import SavannahNode.ForStd.OrderedList

/-!
# The consistent hash ring

`consistent.Ring` from `utils/hashing/consistent`. A ring's b-tree is the list of its items in
ascending order of their hashes.
-/

namespace SavannahNode.Consistent

class Hashable (α : Type) where
  consistentHashKey : α → List UInt8

structure RingItem (α : Type) where
  hash : UInt64
  value : α

variable {α : Type}

def RingItem.Less (r than : RingItem α) : Prop := r.hash < than.hash

theorem RingItem.less_iff (r than : RingItem α) : r.Less than ↔ r.hash.toNat < than.hash.toNat :=
  UInt64.lt_iff_toNat_lt

instance : DecidableRel (RingItem.Less (α := α)) := fun r than =>
  inferInstanceAs (Decidable (r.hash < than.hash))

/-- The b-tree, as the sorted list of its items. -/
abbrev BTree (α : Type) := { items : List (RingItem α) // items.Pairwise RingItem.Less }

def BTree.replaceOrInsert (t : BTree α) (x : RingItem α) : BTree α :=
  ⟨OrderedList.replaceOrInsert _ x t.1, OrderedList.sorted_replaceOrInsert RingItem.less_iff t.2 x⟩

/-- Delete the item at a hash, and say whether there was one. -/
def BTree.delete (t : BTree α) (hash : UInt64) : BTree α × Bool :=
  (⟨t.1.filter (·.hash ≠ hash), t.2.filter _⟩, t.1.any (·.hash = hash))

structure RingConfig where
  /-- Replication factor for nodes in the ring. -/
  virtualNodes : Nat
  virtualNodes_pos : 0 < virtualNodes
  hasher : List UInt8 → UInt64

def errEmptyRing : String := "ring doesn't have any members"

variable (h : RingConfig) [Hashable α]

def getHashKey (key : List UInt8) (virtualNode : Nat) : List UInt8 :=
  key ++ [UInt8.ofNat virtualNode]

/-- The hashes of the virtual nodes of a node. -/
def RingConfig.virtualNodeHashes (key : α) : List UInt64 :=
  (List.range h.virtualNodes).map fun i => h.hasher (getHashKey (Hashable.consistentHashKey key) i)

/-- `Get`: the tree is ascended from the key's hash to the first item after it. -/
def RingConfig.get (ring : BTree α) (key : α) : Except String α :=
  let hash := h.hasher (Hashable.consistentHashKey key)
  match ring.1.head? with
  | none => .error errEmptyRing
  | some min =>
    match (ring.1.dropWhile (·.hash < hash)).find? (hash < ·.hash) with
    | some item => .ok item.value
    -- wrap around the ring
    | none => .ok min.value

def RingConfig.add (ring : BTree α) (key : α) : BTree α :=
  (h.virtualNodeHashes key).foldl (fun ring hash => ring.replaceOrInsert ⟨hash, key⟩) ring

def RingConfig.remove (ring : BTree α) (key : α) : BTree α × Bool :=
  (h.virtualNodeHashes key).foldl
    (fun r hash =>
      let d := r.1.delete hash
      (d.1, r.2 || d.2))
    (ring, false)

end SavannahNode.Consistent
