import Mathlib.Algebra.BigOperators.Fin
import Mathlib.Data.Nat.Count
import SavannahNode.Native.Sampler

/-!
# Weighted sampling is exact

The elements of the heap are the nodes of a binary tree, and cumulative weights are the weights of
subtrees. The loop that adds them up turns any numbers at the nodes into the sums over subtrees, at
the root the sum of all. So do the numbers of values that lead to one index.
-/

namespace SavannahNode.Sampler

open Finset Function Prod Option

variable {c x : Nat → Nat} {i k m n v fuel : Nat} {l : List (Nat × Nat)} {f : Nat × Nat → Nat}

theorem count_congr {p q : Nat → Prop} [DecidablePred p] [DecidablePred q]
    (h : ∀ v < n, (p v ↔ q v)) : Nat.count p n = Nat.count q n := by
  rw [Nat.count_eq_card_filter_range, Nat.count_eq_card_filter_range]
  exact congrArg card (filter_congr fun v hv => h v (mem_range.1 hv))

/-! ## Sums over subtrees -/

/-- Add the number at each node to its parent, from node `i` on down to the root. -/
def addedUp : Nat → (Nat → Nat) → Nat → Nat
  | 0, c => c
  | i + 1, c => addedUp i (update c (i / 2) (c (i / 2) + c (i + 1)))

theorem sum_update (c : Nat → Nat) (n : Nat) :
    ∑ k ∈ range (i + 1), update c (i / 2) (c (i / 2) + n) k = ∑ k ∈ range (i + 1), c k + n := by
  have hp : i / 2 ∈ range (i + 1) := mem_range.2 (by omega)
  rw [sum_update_of_mem hp, ← add_sum_erase _ c hp, sdiff_singleton_eq_erase]
  omega

/-- The root gets the sum over all nodes. -/
theorem addedUp_zero : addedUp i c 0 = ∑ k ∈ range (i + 1), c k := by
  induction i generalizing c with
  | zero => simp [addedUp]
  | succ i ih => rw [addedUp, ih, sum_update, ← sum_range_succ]

/-- Nodes after `i` keep their numbers. -/
theorem addedUp_of_lt (h : i < k) : addedUp i c k = c k := by
  induction i generalizing c with
  | zero => rfl
  | succ i ih => rw [addedUp, ih (by omega), update_of_ne (by omega)]

/-- If every node has its own number and the sums of those children that come after `i`, every
    node gets the sums of both children. -/
theorem addedUp_split (h : ∀ k, c k = x k + (if i < k * 2 + 1 then c (k * 2 + 1) else 0) +
    (if i < k * 2 + 2 then c (k * 2 + 2) else 0)) (k : Nat) :
    addedUp i c k = x k + addedUp i c (k * 2 + 1) + addedUp i c (k * 2 + 2) := by
  induction i generalizing c with
  | zero => simpa [addedUp] using h k
  | succ i ih =>
    refine ih fun k => ?_
    have hk := h k
    simp only [update_apply]
    by_cases hp : k = i / 2
    · -- node `i + 1` is one of the children
      obtain heq | heq : i + 1 = k * 2 + 1 ∨ i + 1 = k * 2 + 2 := by omega
      · rw [heq, ← hp]
        split_ifs at hk ⊢ <;> omega
      rw [heq, ← hp]
      split_ifs at hk ⊢ <;> omega
    · split_ifs at hk ⊢ <;> omega

/-- The sums over subtrees of what `f` has for the elements of a heap. -/
def sums (l : List (Nat × Nat)) (f : Nat × Nat → Nat) : Nat → Nat :=
  addedUp (l.length - 1) fun k => f (l.getD k (0, 0))

section

variable (hf : f (0, 0) = 0)

include hf

theorem getD_eq_zero (hk : l.length ≤ k) : f (l.getD k (0, 0)) = 0 := by
  rw [List.getD_eq_getElem?_getD, List.getElem?_eq_none hk]
  exact hf

/-- A subtree has its root and the subtrees of both children, where there are any. -/
theorem sums_eq (k : Nat) :
    sums l f k = f (l.getD k (0, 0)) + sums l f (k * 2 + 1) + sums l f (k * 2 + 2) := by
  refine addedUp_split (x := fun k => f (l.getD k (0, 0))) (fun k => ?_) k
  have hleft : l.length ≤ k * 2 + 1 → f (l.getD (k * 2 + 1) (0, 0)) = 0 := getD_eq_zero hf
  have hright : l.length ≤ k * 2 + 2 → f (l.getD (k * 2 + 2) (0, 0)) = 0 := getD_eq_zero hf
  split_ifs <;> omega

theorem sums_eq_zero (hk : l.length ≤ k) : sums l f k = 0 := by
  cases l with
  | nil => exact hf
  | cons e l =>
    rw [sums, addedUp_of_lt (by rw [List.length_cons] at hk ⊢; omega)]
    exact getD_eq_zero hf hk

theorem sum_range_getD (hn : l.length ≤ n) :
    ∑ k ∈ range n, f (l.getD k (0, 0)) = (l.map f).sum := by
  induction l generalizing n with
  | nil => simp [hf]
  | cons a l ih =>
    cases n with
    | zero => simp at hn
    | succ n =>
      rw [sum_range_succ', List.map_cons, List.sum_cons, ← ih (Nat.le_of_succ_le_succ hn), Nat.add_comm]
      rfl

/-- The subtree of the root is the whole heap. -/
theorem sums_root : sums l f 0 = (l.map f).sum := by
  rw [sums, addedUp_zero, sum_range_getD hf (by omega)]

end

/-- What an element contributes to the weight of an index. -/
def weightOf (i : Nat) (e : Nat × Nat) : Nat := if e.2 = i then e.1 else 0

theorem weightOf_default : weightOf i (0, 0) = 0 := ite_self _

namespace WeightedHeap

/-- `Initialize` fails if and only if the sum over all nodes overflows. -/
theorem addUp_eq (h : ∀ k, c k ≤ maxUint64) :
    addUp m c = if maxUint64 < ∑ k ∈ range (m + 1), c k then none else some (addedUp m c) := by
  induction m generalizing c with
  | zero =>
    rw [if_neg (by simpa using h 0)]
    rfl
  | succ m ih =>
    have hparent := add_sum_erase (range (m + 1)) c (mem_range.2 (by omega : m / 2 < m + 1))
    have hm := h (m + 1)
    rw [sum_range_succ, addUp, add64]
    split
    · rw [if_pos (by omega)]
      rfl
    show addUp m (update c (m / 2) (c (m / 2) + c (m + 1))) = _
    rw [ih, sum_update, addedUp]
    intro k
    rw [update_apply]
    split
    · omega
    · exact h k

/-! ## Samples -/

/-- The heap of some elements. -/
def built (l : List (Nat × Nat)) : WeightedHeap := ⟨l, sums l Prod.fst⟩

/-- One round of `Sample`: the values of a subtree are those of its root, then those of the left
    and then those of the right child. -/
theorem sampleLoop_eq (hv : v < sums l fst k) : (built l).sampleLoop (fuel + 1) k v =
      if v < (l.getD k (0, 0)).1 then .ok (l.getD k (0, 0)).2
      else if v < (l.getD k (0, 0)).1 + sums l fst (k * 2 + 1) then
        (built l).sampleLoop fuel (k * 2 + 1) (v - (l.getD k (0, 0)).1)
      else (built l).sampleLoop fuel (k * 2 + 2)
        (v - ((l.getD k (0, 0)).1 + sums l fst (k * 2 + 1))) := by
  have heq := sums_eq (l := l) (f := fst) rfl k
  have hzero : ∀ j, l.length ≤ j → sums l fst j = 0 := fun j => sums_eq_zero rfl
  have hk : k < l.length := by
    by_contra hk
    have := hzero k (by omega)
    omega
  have hleft : ¬v < (l.getD k (0, 0)).1 → ¬l.length ≤ k * 2 + 1 := by
    intro hge hleft
    have h1 := hzero _ hleft
    have h2 := hzero (k * 2 + 2) (by omega)
    omega
  rw [sampleLoop, built, List.getElem?_eq_getElem hk]
  rw [List.getD_eq_getElem?_getD, List.getElem?_eq_getElem hk, getD_some] at *
  dsimp only
  split
  · rfl
  rw [if_neg (hleft ‹_›)]
  split
  · rw [if_neg (by omega), Nat.sub_sub]
  · rw [if_pos (by omega)]

/-- Every value below the weight of a subtree leads to an index in it. -/
theorem exists_sampleLoop (hfuel : l.length ≤ k + fuel) (hv : v < sums l fst k) :
    ∃ i, (built l).sampleLoop fuel k v = .ok i := by
  induction fuel generalizing k v with
  | zero =>
    have := sums_eq_zero (f := fst) rfl (by omega : l.length ≤ k)
    omega
  | succ fuel ih =>
    have heq := sums_eq (l := l) (f := fst) rfl k
    rw [sampleLoop_eq hv]
    split
    · exact ⟨_, rfl⟩
    split
    · exact ih (by omega) (by omega)
    · exact ih (by omega) (by omega)

/-- The values that lead to an index are as many as the weight of its elements. -/
theorem count_sampleLoop (i : Nat) (hfuel : l.length ≤ k + fuel) :
    Nat.count (fun v => (built l).sampleLoop fuel k v = .ok i) (sums l fst k) =
      sums l (weightOf i) k := by
  induction fuel generalizing k with
  | zero =>
    rw [Nat.add_zero] at hfuel
    rw [sums_eq_zero (f := fst) rfl hfuel, sums_eq_zero weightOf_default hfuel, Nat.count_zero]
  | succ fuel ih =>
    have heq := sums_eq (l := l) (f := fst) rfl k
    rw [heq, Nat.count_add, Nat.count_add, sums_eq weightOf_default, ← ih (by omega),
      ← ih (by omega), weightOf]
    refine congrArg₂ _ (congrArg₂ _ ?_ ?_) ?_
    · -- the values that stop at node `k`
      split
      · refine Nat.count_of_forall fun v hv => ?_
        rw [sampleLoop_eq (by omega), if_pos hv]
        exact congrArg _ ‹_›
      refine Nat.count_of_forall_not fun v hv => ?_
      rw [sampleLoop_eq (by omega), if_pos hv]
      simpa
    · refine count_congr fun v hv => ?_
      rw [sampleLoop_eq (by omega), if_neg (by omega), if_pos (by omega), Nat.add_sub_cancel_left]
    · refine count_congr fun v hv => ?_
      rw [sampleLoop_eq (by omega), if_neg (by omega), if_neg (by omega), Nat.add_sub_cancel_left]

end WeightedHeap

/-! ## The weights -/

/-- A sampler that returns each index for as many values as its weight. -/
structure Exact (weights : List UInt64) (sample : Nat → Except SampleErr Nat) : Prop where
  inRange : ∀ v < (weights.map UInt64.toNat).sum, ∃ i, sample v = .ok i
  outOfRange : ∀ v, (weights.map UInt64.toNat).sum ≤ v → sample v = .error .outOfRange
  count : ∀ i, Nat.count (fun v => sample v = .ok i) (weights.map UInt64.toNat).sum =
    (weights.getD i 0).toNat

variable {weights : List UInt64}

theorem map_indexed : (indexed weights).map fst = weights.map UInt64.toNat :=
  List.ext_getElem (by simp [indexed]) fun k _ _ => by simp [indexed]

theorem sum_weightOf : ((indexed weights).map (weightOf i)).sum = (weights.getD i 0).toNat := by
  have hsum : ((indexed weights).map (weightOf i)).sum =
      ∑ k ∈ range weights.length, weightOf i ((weights.getD k 0).toNat, k) := by
    rw [← Fin.sum_univ_eq_sum_range fun k => weightOf i ((weights.getD k 0).toNat, k),
      ← List.sum_ofFn]
    exact congrArg _ (List.ext_getElem (by simp [indexed]) fun k _ _ => by simp [indexed])
  refine hsum.trans ((sum_ite_eq' _ i fun k => (weights.getD k 0).toNat).trans ?_)
  split
  · rfl
  rename_i hi
  rw [List.getD_eq_getElem?_getD, List.getElem?_eq_none (by simpa using hi)]
  rfl

section

variable (h : l.Perm (indexed weights))

include h

theorem sum_of_perm : (l.map fst).sum = (weights.map UInt64.toNat).sum := by
  rw [(h.map _).sum_eq, map_indexed]

theorem getD_le (k : Nat) : (l.getD k (0, 0)).1 ≤ maxUint64 := by
  rw [List.getD_eq_getElem?_getD]
  cases hk : l[k]? with
  | none => exact Nat.zero_le _
  | some e =>
    have hmem : e.1 ∈ (indexed weights).map fst :=
      List.mem_map_of_mem (h.mem_iff.1 (List.mem_of_getElem? hk))
    rw [map_indexed] at hmem
    obtain ⟨weight, -, hweight⟩ := List.mem_map.1 hmem
    exact hweight ▸ Nat.le_sub_one_of_lt weight.toNat_lt

theorem WeightedHeap.exact_built : Exact weights (built l).sample := by
  have hroot : sums l fst 0 = (weights.map UInt64.toNat).sum :=
    (sums_root rfl).trans (sum_of_perm h)
  have hsample : ∀ v < (weights.map UInt64.toNat).sum,
      (built l).sample v = (built l).sampleLoop l.length 0 v := by
    intro v hv
    refine if_neg (not_or_intro (fun hl => ?_) ?_)
    · cases List.eq_nil_of_length_eq_zero hl
      cases hroot ▸ hv
    · exact Nat.not_le.2 (hv.trans_eq hroot.symm)
  refine ⟨fun v hv => ?_, fun v hv => if_pos (.inr (hroot.le.trans hv)), fun i => ?_⟩
  · rw [hsample v hv]
    exact exists_sampleLoop (Nat.le_add_left _ _) (hv.trans_eq hroot.symm)
  · rw [count_congr fun v hv => by rw [hsample v hv], ← hroot, count_sampleLoop i (Nat.le_add_left _ _),
      sums_root weightOf_default, (h.map _).sum_eq, sum_weightOf]

end

/-! ## The other samplers -/

/-- The index that a value falls on if elements take as many values as their weights. -/
def pick : List (Nat × Nat) → Nat → Option Nat
  | [], _ => none
  | e :: l, v => if v < e.1 then some e.2 else pick l (v - e.1)

theorem pick_eq_none : pick l v = none ↔ (l.map fst).sum ≤ v := by
  induction l generalizing v with
  | nil => simp [pick]
  | cons e l ih =>
    rw [pick, List.map_cons, List.sum_cons]
    split
    · exact iff_of_false (some_ne_none _) (by omega)
    · rw [ih]
      omega

theorem count_pick (i : Nat) :
    Nat.count (fun v => pick l v = some i) (l.map fst).sum = (l.map (weightOf i)).sum := by
  induction l with
  | nil => rfl
  | cons e l ih =>
    rw [List.map_cons, List.sum_cons, Nat.count_add, List.map_cons, List.sum_cons, ← ih, weightOf]
    refine congrArg₂ _ ?_ (count_congr fun v _ => ?_)
    · split
      · refine Nat.count_of_forall fun v hv => ?_
        rw [pick, if_pos hv, ‹e.2 = i›]
      refine Nat.count_of_forall_not fun v hv => ?_
      rw [pick, if_pos hv]
      simpa
    · rw [pick, if_neg (by omega), Nat.add_sub_cancel_left]

/-- A sampler that walks over the elements is exact, in whatever order they are. -/
theorem Exact.of_pick {sample : Nat → Except SampleErr Nat} (h : l.Perm (indexed weights))
    (hnone : ∀ v, pick l v = none → sample v = .error .outOfRange)
    (hsome : ∀ v i, pick l v = some i → sample v = .ok i) : Exact weights sample := by
  have hsum := sum_of_perm h
  refine ⟨fun v hv => ?_, fun v hv => hnone v (pick_eq_none.2 (hsum.trans_le hv)), fun i => ?_⟩
  · have hne : pick l v ≠ none := fun hp => Nat.not_le.2 hv (hsum ▸ pick_eq_none.1 hp)
    obtain ⟨i, hi⟩ := ne_none_iff_exists'.1 hne
    exact ⟨i, hsome v i hi⟩
  rw [← sum_weightOf, ← (h.map _).sum_eq, ← count_pick, ← hsum]
  refine count_congr fun v _ => ?_
  cases hp : pick l v with
  | none => simp [hnone v hp]
  | some j => simp [hsome v j hp]

theorem WeightedLinear.addUp_eq_some {arr : List (Nat × Nat)} (h : addUp n l = some arr) :
    (∀ j, (arr.getLastD (n, j)).1 = n + (l.map fst).sum) ∧
      ∀ v i, pick l v = some i → sampleLoop (n + v) arr = .ok i := by
  induction l generalizing n arr with
  | nil =>
    cases h
    exact ⟨fun j => rfl, fun v i hi => by cases hi⟩
  | cons e l ih =>
    simp only [addUp, bind_eq_bind, bind_eq_some_iff] at h
    obtain ⟨newWeight, hadd, arr', harr, h⟩ := h
    cases h
    obtain rfl := add64_eq_some hadd
    obtain ⟨hlast, hloop⟩ := ih harr
    refine ⟨fun j => ?_, fun v i hi => ?_⟩
    · rw [List.getLastD_cons, hlast, List.map_cons, List.sum_cons, Nat.add_assoc]
    rw [pick] at hi
    rw [sampleLoop]
    split at hi
    · cases hi
      exact if_pos (by omega)
    rw [if_neg (by omega), ← hloop _ i hi]
    congr 1
    omega

theorem WeightedLinear.exact_sample {arr : List (Nat × Nat)} (hperm : l.Perm (indexed weights))
    (h : addUp 0 l = some arr) : Exact weights (sample ⟨arr⟩) := by
  obtain ⟨hlast, hloop⟩ := addUp_eq_some h
  simp only [Nat.zero_add] at hlast hloop
  refine .of_pick hperm (fun v hv => ?_) fun v i hi => ?_
  · exact if_pos (.inr ((hlast 0).trans_le (pick_eq_none.1 hv)))
  rw [sample, if_neg, hloop v i hi]
  have hlt : ¬(l.map fst).sum ≤ v := by
    rw [← pick_eq_none, hi]
    exact some_ne_none i
  rintro (hnil | hle)
  · cases List.eq_nil_of_length_eq_zero hnil
    exact hlt (hlast 0 ▸ Nat.zero_le v)
  · exact hlt (hlast 0 ▸ hle)

theorem WeightedUniform.exact_sample :
    Exact weights (sample ⟨(indexed weights).flatMap fun e => List.replicate e.1 e.2⟩) := by
  have hpick : ∀ l v, (l.flatMap fun e => List.replicate e.1 e.2)[v]? = pick l v := by
    intro l
    induction l with
    | nil => exact fun v => rfl
    | cons e l ih =>
      intro v
      rw [List.flatMap_cons, List.getElem?_append, pick, List.length_replicate, ih]
      split
      · exact List.getElem?_replicate_of_lt ‹_›
      · rfl
  refine .of_pick (.refl _) (fun v hv => ?_) fun v i hi => ?_
  · rw [sample, hpick, hv]
  · rw [sample, hpick, hi]

/-- `Initialize` fails if and only if the weights overflow, and else the samples are exact, as
    those of the other samplers are. -/
theorem WeightedHeap.init_exact (sorting : Sorting (Nat × Nat)) (weights : List UInt64)
    (maxWeight : Nat) :
    ((init sorting weights = none ↔ maxUint64 < (weights.map UInt64.toNat).sum) ∧
      ∀ s, init sorting weights = some s → Exact weights s.sample) ∧
      (∀ s, WeightedLinear.init sorting weights = some s → Exact weights s.sample) ∧
      ∀ s, WeightedUniform.init maxWeight weights = some s → Exact weights s.sample := by
  have hperm := sorting.perm (indexed weights)
  have hinit : init sorting weights = if maxUint64 < (weights.map UInt64.toNat).sum then none
      else some (built (sorting.sort (indexed weights))) := by
    rw [init, addUp_eq (getD_le hperm), sum_range_getD rfl (by omega), sum_of_perm hperm]
    split
    · rfl
    · rfl
  refine ⟨?_, fun s hs => ?_, fun s hs => ?_⟩
  · rw [hinit]
    split
    · rename_i hlt
      exact ⟨iff_of_true rfl hlt, fun s hs => by cases hs⟩
    refine ⟨iff_of_false (some_ne_none _) ‹_›, fun s hs => ?_⟩
    cases hs
    exact exact_built hperm
  · obtain ⟨arr, harr, hs⟩ := bind_eq_some_iff.1 hs
    cases hs
    exact WeightedLinear.exact_sample hperm harr
  obtain ⟨totalWeight, -, hs⟩ := bind_eq_some_iff.1 hs
  split at hs
  · cases hs
  cases hs
  exact WeightedUniform.exact_sample

end SavannahNode.Sampler
