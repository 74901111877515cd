import SavannahNode.Native.Ids
import SavannahNode.ForStd.Count
import SavannahNode.ForStd.Pair
import Mathlib.Data.Finset.Insert

/-!
# Vote bags

`ids.Bag` counts votes per ID and keeps the total, the mode and the set of IDs
that met a threshold up to date as votes are added. `counts` lists the entries of
Go's map in the order a `range` over it visits them. Go leaves that order open;
statements here are about every bag, hence about every order.

The fields after `metThreshold` state how the cached values follow from `counts`.
-/

namespace SavannahNode

open List

/-- A multiset of IDs, `ids.Bag`. -/
structure Bag where
  counts : List (ID × Nat)
  size : Nat
  mode : ID
  modeFreq : Nat
  threshold : Int
  metThreshold : Finset ID
  nodup_keys : (counts.map Prod.fst).Nodup
  counts_pos : ∀ p ∈ counts, 0 < p.2
  size_eq : size = (counts.map Prod.snd).sum
  le_modeFreq : ∀ id, counts.countOf id ≤ modeFreq
  countOf_mode : counts.countOf mode = modeFreq
  mem_metThreshold : ∀ id, id ∈ metThreshold ↔
    id ∈ counts.map Prod.fst ∧ threshold ≤ counts.countOf id

namespace Bag

/-- The zero value `Bag{}`. -/
def empty : Bag where
  counts := []
  size := 0
  mode := ID.empty
  modeFreq := 0
  threshold := 0
  metThreshold := ∅
  nodup_keys := nodup_nil
  counts_pos := by simp
  size_eq := rfl
  le_modeFreq := by simp
  countOf_mode := rfl
  mem_metThreshold := by simp

instance : EmptyCollection Bag := ⟨empty⟩

instance : Inhabited Bag := ⟨empty⟩

/-- `Bag.Count`: the number of times the ID has been added. -/
def count (b : Bag) (id : ID) : Nat := b.counts.countOf id

/-- `Bag.Len`: the number of votes in the bag. -/
def len (b : Bag) : Nat := b.size

/-- `Bag.List`: the IDs in the bag. -/
def list (b : Bag) : List ID := b.counts.map Prod.fst

/-- `Bag.AddCount`: increase the number of votes for the ID by `count`. -/
def addCount (b : Bag) (id : ID) (count : Nat) : Bag :=
  if hc : count = 0 then b
  else
    let totalCount := b.count id + count
    { counts := b.counts.bump id count
      size := b.size + count
      mode := if totalCount > b.modeFreq then id else b.mode
      modeFreq := if totalCount > b.modeFreq then totalCount else b.modeFreq
      threshold := b.threshold
      metThreshold := if (totalCount : Int) ≥ b.threshold then insert id b.metThreshold
        else b.metThreshold
      nodup_keys := nodup_bump b.nodup_keys
      counts_pos := pos_of_mem_bump (by omega) b.counts_pos
      size_eq := by
        have h := countWhere_bump (fun _ => true) (k := id) (n := count) (l := b.counts)
        rw [countWhere_true, countWhere_true, ← b.size_eq] at h
        exact h.symm
      le_modeFreq := by
        intro x
        have hx := b.le_modeFreq x
        rw [countOf_bump]
        change _ ≤ if b.counts.countOf id + count > b.modeFreq then _ else _
        split <;> split <;> (try simp only [totalCount, Bag.count]) <;> omega
      countOf_mode := by
        have hle := b.le_modeFreq id
        rw [countOf_bump]
        by_cases h : totalCount > b.modeFreq
        · rw [if_pos h, if_pos h, if_pos rfl]
          rfl
        -- the mode did not change, and its count can only have been below the new total
        rw [if_neg h, if_neg h]
        simp only [totalCount, Bag.count] at h
        split
        · rename_i hmode
          have hm := b.countOf_mode
          rw [hmode] at hm
          omega
        · exact b.countOf_mode
      mem_metThreshold := by
        intro x
        have hx := b.mem_metThreshold x
        rw [mem_map_fst_bump, countOf_bump]
        by_cases hxid : x = id
        · subst hxid
          by_cases h : (totalCount : Int) ≥ b.threshold
          · rw [if_pos h, if_pos rfl]
            exact ⟨fun _ => ⟨.inl rfl, h⟩, fun _ => Finset.mem_insert_self x _⟩
          rw [if_neg h, if_pos rfl, hx]
          simp only [totalCount, Bag.count] at h
          exact ⟨fun h' => by omega, fun h' => absurd h'.2 (by omega)⟩
        have hmem : (x ∈ if (totalCount : Int) ≥ b.threshold then insert id b.metThreshold
            else b.metThreshold) ↔ x ∈ b.metThreshold := by
          split
          · exact Finset.mem_insert.trans (or_iff_right hxid)
          · exact Iff.rfl
        rw [hmem, hx, if_neg hxid, or_iff_right hxid] }

/-- `Bag.Add`: one more vote for each of the IDs. -/
def add (b : Bag) (ids : List ID) : Bag := ids.foldl (fun b id => b.addCount id 1) b

/-- `Bag.SetThreshold`: the number of votes needed to be in the threshold set. -/
def setThreshold (b : Bag) (threshold : Int) : Bag :=
  if b.threshold = threshold then b
  else
    { b with
      threshold := threshold
      metThreshold := ((b.counts.filter fun p => threshold ≤ (p.2 : Int)).map Prod.fst).toFinset
      mem_metThreshold := by
        intro x
        simp only [mem_toFinset, mem_map, mem_filter, decide_eq_true_eq]
        constructor
        · rintro ⟨p, ⟨hp, hle⟩, rfl⟩
          rw [countOf_eq_of_mem b.nodup_keys (n := p.2) hp]
          exact ⟨⟨p, hp, rfl⟩, hle⟩
        rintro ⟨⟨p, hp, rfl⟩, hle⟩
        rw [countOf_eq_of_mem b.nodup_keys (n := p.2) hp] at hle
        exact ⟨p, ⟨hp, hle⟩, rfl⟩ }

/-- `Bag.Filter`: the votes for IDs with the same bits as `id` in `[start, stop)`. -/
def filter (b : Bag) (start stop : Nat) (id : ID) : Bag :=
  b.counts.foldl (fun newBag p =>
    if equalSubset start stop id p.1 then newBag.addCount p.1 p.2 else newBag) ∅

/-- `Bag.Split`: the votes for IDs with bit `index` equal to `0` and to `1`. -/
def split (b : Bag) (index : Nat) : Pair Bag :=
  b.counts.foldl (fun splitVotes p =>
    let bit := p.1.bit index
    splitVotes.set bit ((splitVotes.get bit).addCount p.1 p.2)) (Pair.both ∅)

end Bag

end SavannahNode
