import SavannahNode.Native.Bag
import SavannahNode.Spec.IdsBits

/-!
# Counting votes in bags

A bag is used through the number of its votes for the IDs that satisfy some
predicate. `filter` and `split` select votes, so every bag the snowball tree derives
from a poll is described by a predicate on the votes of that poll.
-/

namespace SavannahNode

open List

namespace Bag

/-- The number of votes for IDs that satisfy `P`. -/
def countWhere (b : Bag) (P : ID → Bool) : Nat := b.counts.countWhere P

theorem len_eq_countWhere (b : Bag) : b.len = b.countWhere fun _ => true := by
  rw [len, b.size_eq, countWhere, countWhere_true]

theorem countWhere_le_len (b : Bag) (P : ID → Bool) : b.countWhere P ≤ b.len := by
  rw [len_eq_countWhere]
  exact countWhere_le fun _ _ _ => rfl

variable {b : Bag} {P Q : ID → Bool} {id : ID} {start stop : Nat}

theorem countWhere_mono (h : ∀ id ∈ b.list, P id = true → Q id = true) :
    b.countWhere P ≤ b.countWhere Q := countWhere_le h

theorem countWhere_congr (h : ∀ id ∈ b.list, P id = Q id) : b.countWhere P = b.countWhere Q :=
  Nat.le_antisymm (countWhere_mono fun id hid hp => h id hid ▸ hp)
    (countWhere_mono fun id hid hq => (h id hid).symm ▸ hq)

/-- Votes for two disjoint sets of IDs add up to at most all votes. -/
theorem countWhere_add_le_len (h : ∀ id, P id = true → Q id = false) :
    b.countWhere P + b.countWhere Q ≤ b.len := by
  rw [len, b.size_eq]
  exact countWhere_add_le fun k _ => h k

theorem count_eq_countWhere (b : Bag) (id : ID) : b.count id = b.countWhere fun x => x = id :=
  (countWhere_eq_countOf b.nodup_keys id).symm

theorem countWhere_or (b : Bag) (h : ∀ id, P id = true → Q id = false) :
    b.countWhere (fun x => P x || Q x) = b.countWhere P + b.countWhere Q :=
  List.countWhere_or fun k _ => h k

theorem countWhere_or_key (b : Bag) (h : P id = false) :
    b.countWhere (fun x => P x || decide (x = id)) = b.countWhere P + b.count id :=
  List.countWhere_or_key b.nodup_keys h

theorem mem_list_iff (b : Bag) (id : ID) : id ∈ b.list ↔ 0 < b.count id := by
  constructor
  · intro h
    obtain ⟨p, hp, rfl⟩ := mem_map.mp h
    rw [count, countOf_eq_of_mem b.nodup_keys (n := p.2) hp]
    exact b.counts_pos p hp
  · intro h
    exact mem_map.mpr ⟨_, mem_of_countOf_pos h, rfl⟩

/-! ## `addCount` -/

/-- Bags with the same counts have the same IDs. -/
theorem mem_list_of_countWhere_eq {b' : Bag} (h : ∀ P, b.countWhere P = b'.countWhere P) :
    id ∈ b.list ↔ id ∈ b'.list := by
  rw [mem_list_iff, mem_list_iff, count_eq_countWhere, count_eq_countWhere, h]

theorem countWhere_false (b : Bag) : (b.countWhere fun _ => false) = 0 := by
  simp [countWhere, List.countWhere]

@[simp] theorem countWhere_empty (P : ID → Bool) : (∅ : Bag).countWhere P = 0 := rfl

theorem counts_addCount (b : Bag) (id : ID) {n : Nat} (hn : 0 < n) :
    (b.addCount id n).counts = b.counts.bump id n := by
  rw [addCount, dif_neg (by omega)]

theorem countWhere_addCount (b : Bag) (id : ID) (n : Nat) (P : ID → Bool) :
    (b.addCount id n).countWhere P = b.countWhere P + if P id then n else 0 := by
  by_cases hn : n = 0
  · subst hn
    simp [addCount]
  rw [countWhere, counts_addCount b id (by omega), countWhere_bump]
  rfl

theorem count_addCount (b : Bag) (id x : ID) (n : Nat) :
    (b.addCount id n).count x = b.count x + if x = id then n else 0 := by
  rw [count_eq_countWhere, countWhere_addCount, ← count_eq_countWhere]
  congr 1
  by_cases h : x = id
  · simp [h]
  · simp [h, Ne.symm h]

theorem len_addCount (b : Bag) (id : ID) (n : Nat) : (b.addCount id n).len = b.len + n := by
  rw [len_eq_countWhere, countWhere_addCount, ← len_eq_countWhere]
  simp

/-! ## `filter` and `split` -/

/-- Adding the selected entries of a counted list to a bag that has none of its keys
    appends them. -/
private theorem counts_foldl_addCount (P : ID → Bool) (l : List (ID × Nat)) (b : Bag)
    (hn : (l.map Prod.fst).Nodup) (hpos : ∀ p ∈ l, 0 < p.2)
    (hdis : ∀ id ∈ l.map Prod.fst, id ∉ b.counts.map Prod.fst) :
    (l.foldl (fun b p => if P p.1 then b.addCount p.1 p.2 else b) b).counts =
      b.counts ++ l.filter (P ·.1) := by
  induction l generalizing b with
  | nil => simp
  | cons p l ih =>
    simp only [map_cons, nodup_cons] at hn
    have hpos' : ∀ q ∈ l, 0 < q.2 := fun q hq => hpos q (mem_cons_of_mem _ hq)
    rw [foldl_cons]
    by_cases hP : P p.1 = true
    · have hnew := bump_of_notMem (n := p.2) (hdis p.1 (by simp))
      have hcounts := counts_addCount b p.1 (hpos p mem_cons_self)
      rw [if_pos hP, ih _ hn.2 hpos' ?_, hcounts, hnew, filter_cons, if_pos hP,
        append_assoc, singleton_append]
      intro id hid
      rw [hcounts, mem_map_fst_bump, not_or]
      exact ⟨fun h => hn.1 (h ▸ hid), hdis id (by simp [hid])⟩
    · rw [if_neg hP, ih _ hn.2 hpos' fun id hid => hdis id (by simp [hid]), filter_cons, if_neg hP]

theorem counts_filter (b : Bag) (start stop : Nat) (id : ID) :
    (b.filter start stop id).counts = b.counts.filter (equalSubset start stop id ·.1) := by
  have h := counts_foldl_addCount (equalSubset start stop id) b.counts ∅ b.nodup_keys b.counts_pos
    (fun _ _ h => by cases h)
  exact h

/-- `filter` keeps the votes that agree with the ID on the range. -/
theorem countWhere_filter (b : Bag) (start stop : Nat) (id : ID) (P : ID → Bool) :
    (b.filter start stop id).countWhere P =
      b.countWhere fun x => equalSubset start stop id x && P x := by
  rw [countWhere, counts_filter, List.countWhere_filter]
  rfl

theorem mem_list_filter {x : ID} :
    x ∈ (b.filter start stop id).list ↔ x ∈ b.list ∧ equalSubset start stop id x = true := by
  simp only [list, counts_filter, mem_map, mem_filter]
  constructor
  · rintro ⟨p, ⟨hp, he⟩, rfl⟩
    exact ⟨⟨p, hp, rfl⟩, he⟩
  · rintro ⟨⟨p, hp, rfl⟩, he⟩
    exact ⟨p, ⟨hp, he⟩, rfl⟩

/-- A filter that lets every vote pass keeps the counts. -/
theorem countWhere_filter_of_forall (h : ∀ x ∈ b.list, equalSubset start stop id x = true)
    (P : ID → Bool) : (b.filter start stop id).countWhere P = b.countWhere P := by
  rw [countWhere_filter]
  exact countWhere_congr fun x hx => by rw [h x hx, Bool.true_and]

theorem len_filter_of_forall (h : ∀ x ∈ b.list, equalSubset start stop id x = true) :
    (b.filter start stop id).len = b.len := by
  rw [len_eq_countWhere, countWhere_filter_of_forall h, ← len_eq_countWhere]

/-- Splitting adds the entries with the given bit to that element of the pair. -/
private theorem get_foldl_split (index : Nat) (bit : Bool) (l : List (ID × Nat)) (s : Pair Bag) :
    (l.foldl (fun s p =>
      let bit := p.1.bit index
      s.set bit ((s.get bit).addCount p.1 p.2)) s).get bit =
      l.foldl (fun b p => if p.1.bit index == bit then b.addCount p.1 p.2 else b) (s.get bit) := by
  induction l generalizing s with
  | nil => rfl
  | cons p l ih =>
    rw [foldl_cons, ih, foldl_cons, Pair.get_set]
    by_cases h : bit = p.1.bit index
    · simp [h]
    · simp [h, Ne.symm h]

theorem counts_split (b : Bag) (index : Nat) (bit : Bool) :
    ((b.split index).get bit).counts = b.counts.filter (·.1.bit index == bit) := by
  rw [split, get_foldl_split]
  have h := counts_foldl_addCount (fun x => x.bit index == bit) b.counts ∅ b.nodup_keys
    b.counts_pos (fun _ _ h => by cases h)
  rw [Pair.get_both, h]
  rfl

/-- `split` keeps the votes with the given bit. -/
theorem countWhere_split (b : Bag) (index : Nat) (bit : Bool) (P : ID → Bool) :
    ((b.split index).get bit).countWhere P = b.countWhere fun x => x.bit index == bit && P x := by
  rw [countWhere, counts_split, List.countWhere_filter P fun x => x.bit index == bit]
  rfl

theorem mem_list_split {index : Nat} {bit : Bool} {x : ID} :
    x ∈ ((b.split index).get bit).list ↔ x ∈ b.list ∧ x.bit index = bit := by
  simp only [list, counts_split, mem_map, mem_filter, beq_iff_eq]
  constructor
  · rintro ⟨p, ⟨hp, he⟩, rfl⟩
    exact ⟨⟨p, hp, rfl⟩, he⟩
  · rintro ⟨⟨p, hp, rfl⟩, he⟩
    exact ⟨p, ⟨hp, he⟩, rfl⟩

end Bag

end SavannahNode
