import SavannahNode.ForStd.Count

/-!
# Node identifiers and bags of them

`ids.NodeID` is a `[20]byte`. `ids.NodeIDBag` is the multiset of validators a poll samples;
as in `Bag`, `counts` lists the entries of Go's map in some range order.
-/

namespace SavannahNode

/-- A 20-byte node identifier. -/
structure NodeID where
  toBits : BitVec 160
deriving DecidableEq, Repr

/-- A multiset of node IDs, `ids.NodeIDBag`. -/
structure NodeIDBag where
  counts : List (NodeID × Nat)
  size : Nat
  nodup_keys : (counts.map Prod.fst).Nodup
  size_eq : size = (counts.map Prod.snd).sum

namespace NodeIDBag

theorem size_nil : 0 = (([] : List (NodeID × Nat)).map Prod.snd).sum := rfl

/-- The zero value `NodeIDBag{}`. -/
def empty : NodeIDBag where
  counts := []
  size := 0
  nodup_keys := List.nodup_nil
  size_eq := size_nil

variable (b : NodeIDBag) (id : NodeID)

/-- `NodeIDBag.Count`: the number of times the ID has been added. -/
def count : Nat := b.counts.countOf id

/-- `NodeIDBag.Len`. -/
def len : Nat := b.size

/-- `NodeIDBag.List`. -/
def list : List NodeID := b.counts.map Prod.fst

/-- `NodeIDBag.AddCount`. -/
def addCount (count : Nat) : NodeIDBag :=
  if count = 0 then b
  else
    { counts := b.counts.bump id count
      size := b.size + count
      nodup_keys := List.nodup_bump b.nodup_keys
      size_eq := by
        have h := List.countWhere_bump (fun _ => true) (k := id) (n := count) (l := b.counts)
        rw [List.countWhere_true, List.countWhere_true, ← b.size_eq] at h
        exact h.symm }

/-- `NodeIDBag.Add`: one more of each of the IDs. -/
def add (ids : List NodeID) : NodeIDBag := ids.foldl (fun b id => b.addCount id 1) b

theorem sum_filter_ne :
    ((b.counts.filter fun p => decide (p.1 ≠ id)).map Prod.snd).sum + b.count id = b.size := by
  have hnot : (fun x => decide (x ≠ id)) id = false := by simp
  have h := List.countWhere_or_key (P := fun x => decide (x ≠ id)) b.nodup_keys hnot
  have hall : (fun x => decide (x ≠ id) || decide (x = id)) = fun _ => true := by
    funext x
    by_cases hx : x = id <;> simp [hx]
  rw [hall, List.countWhere_true, ← b.size_eq] at h
  exact h.symm

/-- `NodeIDBag.Remove`: set the count of the ID to zero. -/
def remove : NodeIDBag where
  counts := b.counts.filter fun p => decide (p.1 ≠ id)
  size := b.size - b.count id
  nodup_keys := b.nodup_keys.sublist (List.filter_sublist.map _)
  size_eq := by
    have := b.sum_filter_ne id
    omega

theorem count_le_len : b.count id ≤ b.len := by
  have := b.sum_filter_ne id
  rw [len]
  omega

theorem len_remove : (b.remove id).len + b.count id = b.len := by
  have := b.count_le_len id
  show b.size - b.count id + b.count id = b.size
  rw [len] at this
  omega

end NodeIDBag

end SavannahNode
