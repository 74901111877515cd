import SavannahNode.Native.UniqueBag
import SavannahNode.Spec.BagVotes

/-!
# What unique bags count

The operations of `BitSet` and `UniqueBag` as operations on sets of voters, and the bag of
votes made from a unique bag.

## Key results

- `UniqueBag.mem_voters_unionSet`, `UniqueBag.mem_voters_add`, `UniqueBag.voters_difference` —
  the voters of an ID after an operation
- `UniqueBag.mem_metThreshold_bag` — the IDs of the bag that meet the threshold
-/

namespace SavannahNode

namespace BitSet

variable {i : Fin 64}

theorem mem_members {bs : BitSet} : i ∈ bs.members ↔ bs.getLsbD i = true := by
  simp [members]

@[simp] theorem members_zero : members 0#64 = ∅ := by
  ext i
  simp [mem_members]

@[simp] theorem members_union (bs s : BitSet) : (bs.union s).members = bs.members ∪ s.members := by
  ext i
  simp [mem_members, union]

@[simp] theorem members_difference (bs s : BitSet) :
    (bs.difference s).members = bs.members \ s.members := by
  ext i
  simp [mem_members, difference]

@[simp] theorem mem_members_add_zero (n : Nat) (i : Fin 64) :
    i ∈ (add 0 n).members ↔ i.val = n := by
  rw [mem_members, add, BitVec.getLsbD_or]
  simp
  omega

end BitSet

namespace UniqueBag

/-- The voters that named an ID. -/
def voters (b : UniqueBag) (id : ID) : Finset (Fin 64) := (b.getSet id).members

@[simp] theorem voters_empty (id : ID) : voters ∅ id = ∅ := by
  simp [voters, getSet]

theorem getSet_unionSet (b : UniqueBag) (id x : ID) (set : BitSet) :
    (b.unionSet id set).getSet x = if x = id then (b.getSet id).union set else b.getSet x := by
  rw [unionSet, getSet, Finmap.lookup_insert_ite]
  split
  · rfl
  · rfl

variable {b : UniqueBag}

theorem mem_voters_unionSet {id x : ID} {set : BitSet} :
    i ∈ (b.unionSet id set).voters x ↔ i ∈ b.voters x ∨ x = id ∧ i ∈ set.members := by
  rw [voters, getSet_unionSet]
  split
  · rename_i h
    subst h
    simp [voters]
  rename_i h
  simp [voters, h]

theorem mem_voters_add {n : Nat} {ids : List ID} {x : ID} :
    i ∈ (b.add n ids).voters x ↔ i ∈ b.voters x ∨ x ∈ ids ∧ i.val = n := by
  rw [add]
  induction ids generalizing b with
  | nil => simp
  | cons id ids ih =>
    rw [List.foldl_cons, ih, mem_voters_unionSet, List.mem_cons, BitSet.mem_members_add_zero]
    tauto

/-- An ID with a voter is in the bag. -/
theorem mem_keys_of_mem_voters {x : ID} (h : i ∈ b.voters x) : x ∈ b.keys := by
  rw [Finmap.mem_keys_iff]
  cases hx : b.lookup x with
  | some s => exact ⟨s, rfl⟩
  | none =>
    rw [voters, getSet, hx] at h
    simp at h

@[simp] theorem voters_difference (b diff : UniqueBag) (x : ID) :
    (b.difference diff).voters x = b.voters x \ diff.voters x := by
  simp only [voters, getSet, difference, Finmap.lookup_mapValues]
  cases b.lookup x with
  | none => simp
  | some s =>
    cases diff.lookup x with
    | none => simp
    | some d => simp

/-! ## The bag of votes -/

private theorem count_foldl_addCount (f : ID → Nat) (ids : List ID) (b : Bag) (x : ID)
    (hn : ids.Nodup) :
    (ids.foldl (fun b id => b.addCount id (f id)) b).count x =
      b.count x + if x ∈ ids then f x else 0 := by
  induction ids generalizing b with
  | nil => simp
  | cons id ids ih =>
    obtain ⟨hid, hn⟩ := List.nodup_cons.mp hn
    rw [List.foldl_cons, ih _ hn, Bag.count_addCount]
    by_cases hx : x = id
    · subst hx
      simp [hid]
    · simp [hx]

private theorem threshold_foldl_addCount (f : ID → Nat) (ids : List ID) (b : Bag) :
    (ids.foldl (fun b id => b.addCount id (f id)) b).threshold = b.threshold := by
  induction ids generalizing b with
  | nil => rfl
  | cons id ids ih =>
    rw [List.foldl_cons, ih, Bag.addCount]
    split <;> rfl

theorem count_bag (b : UniqueBag) (order : RangeOrder ID) (alpha : Int) (x : ID) :
    (b.bag order alpha).count x = (b.voters x).card := by
  have hempty : (Bag.empty.setThreshold alpha).count x = 0 := by
    rw [Bag.setThreshold]
    split <;> rfl
  rw [bag, list, count_foldl_addCount _ _ _ _ (order.nodup_list _), hempty, Nat.zero_add]
  split
  · rfl
  rename_i hx
  -- an ID outside the bag has no voters
  symm
  rw [Finset.card_eq_zero, Finset.eq_empty_iff_forall_notMem]
  intro i hi
  exact hx ((order.mem_list _ _).mpr (mem_keys_of_mem_voters hi))

theorem threshold_bag (b : UniqueBag) (order : RangeOrder ID) (alpha : Int) :
    (b.bag order alpha).threshold = alpha := by
  rw [bag, threshold_foldl_addCount, Bag.setThreshold]
  split
  · assumption
  · rfl

theorem mem_metThreshold_bag {order : RangeOrder ID} {alpha : Int} (ha : 0 < alpha)
    {x : ID} : x ∈ (b.bag order alpha).metThreshold ↔ alpha ≤ (b.voters x).card := by
  rw [Bag.mem_metThreshold, threshold_bag]
  show x ∈ (b.bag order alpha).list ∧ alpha ≤ (b.bag order alpha).count x ↔ _
  rw [Bag.mem_list_iff, count_bag]
  omega

end UniqueBag

end SavannahNode
