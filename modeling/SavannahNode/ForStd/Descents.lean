import SavannahNode.ForStd.RootedTree
import Mathlib.Algebra.BigOperators.Group.Finset.Piecewise
import Mathlib.Algebra.Order.BigOperators.Group.Finset

/-!
# Marks in a rooted tree

A list of marked nodes is read from left to right. A node is *reached* when a mark is
properly below it, and *deep* when such a mark is not one of its children. A walk that
starts at the parent of each mark, and goes on upward from nodes it meets for the first
time, passes from a node to its parent once when the node is first reached by a mark on
one of its children, and once when it becomes deep: `weight` counts these passages, and
`degree` adds them up over the children of a node.

## Key results

- `RootedTree.degree_pos_iff`: the degree is zero exactly for nodes that are not deep
- `RootedTree.degree_concat`: how one more mark changes the degrees
- `RootedTree.weight_le_one_iff`: when a node is counted once
- `RootedTree.weight_le_one_of_degree_le`: a degree that is not above the number of reached
  children counts each of them once
-/

namespace SavannahNode

open Finset

universe u

namespace RootedTree

variable {α : Type u} [DecidableEq α] (T : RootedTree α)

/-- A mark is properly below the node. -/
def Reached (V : List α) (q : α) : Prop := ∃ v ∈ V, T.Below q v

/-- A mark is properly below a child of the node. -/
def Deep (V : List α) (q : α) : Prop := ∃ v ∈ V, T.Below q v ∧ T.parent v ≠ q

/-- The first mark below the node is one of its children. -/
def FirstDirect (V : List α) (q : α) : Prop :=
  ∃ v ∈ V.find? fun v => decide (T.Below q v), T.parent v = q

instance (V : List α) (q : α) : Decidable (T.Reached V q) :=
  inferInstanceAs (Decidable (∃ v ∈ V, T.Below q v))

instance (V : List α) (q : α) : Decidable (T.Deep V q) :=
  inferInstanceAs (Decidable (∃ v ∈ V, T.Below q v ∧ T.parent v ≠ q))

instance (V : List α) (q : α) : Decidable (T.FirstDirect V q) :=
  inferInstanceAs (Decidable (∃ v ∈ V.find? fun v => decide (T.Below q v), T.parent v = q))

/-- How often the walks pass from a node to its parent. -/
def weight (V : List α) (c : α) : ℕ :=
  (if T.FirstDirect V c then 1 else 0) + if T.Deep V c then 1 else 0

/-- How often the walks arrive at a node from a child. -/
def degree (V : List α) (q : α) : ℕ := ∑ c ∈ T.children q, T.weight V c

variable {T} {V : List α} {a c p q v : α}

theorem IsChild.below (h : T.IsChild p a) : T.Below p a := h.2.2 ▸ below_parent h.1 h.2.1

/-- Below a node are its children and what is below them. -/
theorem below_iff_child : T.Below q v ↔ ∃ c, T.IsChild q c ∧ (c = v ∨ T.Below c v) := by
  constructor
  · rintro ⟨c, hc, hcq⟩
    have hm := mem_of_mem_path hc
    refine ⟨c, ⟨hm.1, hm.2, hcq⟩, ?_⟩
    by_cases hcv : c = v
    · exact .inl hcv
    · exact .inr ((below_iff hm.2).mpr ⟨hc, hcv⟩)
  rintro ⟨c, hc, rfl | hcv⟩
  · exact hc.below
  · exact ⟨c, ((below_iff hc.2.1).mp hcv).1, hc.2.2⟩

theorem not_below_self : ¬ T.Below q q := by
  rintro ⟨c, hc, hcq⟩
  have hm := mem_of_mem_path hc
  rw [← hcq] at hc
  exact notMem_path_parent hm.1 hm.2 hc

/-- What is above a node is its parent or above its parent. -/
theorem below_iff_parent (hv : v ∈ T.nodes) (hr : v ≠ T.root) :
    T.Below q v ↔ q = T.parent v ∨ T.Below q (T.parent v) := by
  constructor
  · intro h
    by_cases hq : T.parent v = q
    · exact .inl hq.symm
    · exact .inr (below_parent_of_below h hq)
  rintro (rfl | ⟨c, hc, hcq⟩)
  · exact below_parent hv hr
  · exact ⟨c, mem_path_iff.mpr ⟨⟨hv, hr⟩, .inr hc⟩, hcq⟩

/-- A node is never a child of something it is properly below a child of. -/
theorem parent_ne_of_below (hc : T.IsChild q c) (hcv : T.Below c v) : T.parent v ≠ q := by
  intro heq
  obtain ⟨hpath, hne⟩ := (below_iff hc.2.1).mp hcv
  have hv := of_mem_path hpath
  exact hne (child_unique hpath (self_mem_path hv.1 hv.2) hc.2.2 heq)

theorem deep_iff : T.Deep V q ↔ ∃ c, T.IsChild q c ∧ T.Reached V c := by
  constructor
  · rintro ⟨v, hv, hbelow, hne⟩
    obtain ⟨c, hc, rfl | hcv⟩ := below_iff_child.mp hbelow
    · exact absurd hc.2.2 hne
    · exact ⟨c, hc, v, hv, hcv⟩
  · rintro ⟨c, hc, v, hv, hcv⟩
    exact ⟨v, hv, below_iff_child.mpr ⟨c, hc, .inr hcv⟩, parent_ne_of_below hc hcv⟩

theorem Deep.reached (h : T.Deep V q) : T.Reached V q := by
  obtain ⟨v, hv, hbelow, -⟩ := h
  exact ⟨v, hv, hbelow⟩

theorem Reached.mem (h : T.Reached V q) : q ∈ T.nodes := by
  obtain ⟨v, -, hbelow⟩ := h
  exact hbelow.mem_left

/-- A reached node makes everything above it deep. -/
theorem Reached.deep_of_below (h : T.Reached V a) (hq : T.Below q a) : T.Deep V q := by
  obtain ⟨c, hc, hca⟩ := below_iff_child.mp hq
  refine deep_iff.mpr ⟨c, hc, ?_⟩
  rcases hca with rfl | hca
  · exact h
  obtain ⟨v, hv, hav⟩ := h
  have ha := hca.mem
  exact ⟨v, hv, hca.trans_path ((below_iff ha.2).mp hav).1⟩

/-- The first mark below a node is a mark below it. -/
private theorem of_find?_below (h : (V.find? fun v => decide (T.Below q v)) = some v) :
    v ∈ V ∧ T.Below q v := by
  have hbelow := List.find?_some h
  exact ⟨List.mem_of_find?_eq_some h, of_decide_eq_true hbelow⟩

theorem reached_iff : T.Reached V c ↔ T.FirstDirect V c ∨ T.Deep V c := by
  constructor
  · rintro ⟨v, hv, hbelow⟩
    have hsome : (V.find? fun v => decide (T.Below c v)).isSome = true :=
      List.find?_isSome.mpr ⟨v, hv, decide_eq_true hbelow⟩
    obtain ⟨w, hw⟩ := Option.isSome_iff_exists.mp hsome
    by_cases hp : T.parent w = c
    · exact .inl ⟨w, hw, hp⟩
    · exact .inr ⟨w, (of_find?_below hw).1, (of_find?_below hw).2, hp⟩
  rintro (⟨w, hw, -⟩ | h)
  · exact ⟨w, (of_find?_below hw).1, (of_find?_below hw).2⟩
  · exact h.reached

theorem weight_pos_iff : 0 < T.weight V c ↔ T.Reached V c := by
  rw [reached_iff, weight]
  by_cases hf : T.FirstDirect V c <;> by_cases hd : T.Deep V c <;> simp [hf, hd]

/-- A node is counted twice exactly when its first mark is a child and a later one is
    deeper. -/
theorem weight_le_one_iff : T.weight V c ≤ 1 ↔ (T.FirstDirect V c → ¬ T.Deep V c) := by
  rw [weight]
  by_cases hf : T.FirstDirect V c <;> by_cases hd : T.Deep V c <;> simp [hf, hd]

theorem degree_pos_iff : 0 < T.degree V q ↔ T.Deep V q := by
  rw [deep_iff, degree, sum_pos_iff]
  simp only [mem_children, weight_pos_iff]

theorem degree_eq_zero_iff : T.degree V q = 0 ↔ ¬ T.Deep V q := by
  rw [← degree_pos_iff]
  omega

/-- Every reached child is counted. -/
theorem card_reached_le_degree :
    ((T.children q).filter fun c => T.Reached V c).card ≤ T.degree V q := by
  rw [card_filter, degree]
  refine sum_le_sum fun c _ => ?_
  split
  · exact weight_pos_iff.mpr ‹_›
  · exact Nat.zero_le _

/-- A degree that is not above the number of reached children counts no child twice. -/
theorem weight_le_one_of_degree_le
    (h : T.degree V q ≤ ((T.children q).filter fun c => T.Reached V c).card)
    (hc : T.IsChild q c) : T.weight V c ≤ 1 := by
  by_contra htwice
  -- every reached child adds at least one, and this one adds more
  have hlt : ((T.children q).filter fun c => T.Reached V c).card < T.degree V q := by
    rw [card_filter, degree]
    refine sum_lt_sum (fun d _ => ?_) ⟨c, mem_children.mpr hc, ?_⟩
    · split
      · exact weight_pos_iff.mpr ‹_›
      · exact Nat.zero_le _
    · split <;> omega
  omega

/-- When no child is counted twice, the degree is the number of reached children. -/
theorem degree_eq_card_reached (h : ∀ c, T.IsChild q c → T.weight V c ≤ 1) :
    T.degree V q = ((T.children q).filter fun c => T.Reached V c).card := by
  rw [card_filter, degree]
  refine sum_congr rfl fun c hc => ?_
  have hle := h c (mem_children.mp hc)
  have hpos := weight_pos_iff (T := T) (V := V) (c := c)
  split
  · rename_i hreach
    have := hpos.mpr hreach
    omega
  rename_i hreach
  have := mt hpos.mp hreach
  omega

/-- Two nodes above one node are comparable. -/
theorem below_total (ha : T.Below a v) (hq : T.Below q v) : a = q ∨ T.Below a q ∨ T.Below q a := by
  obtain ⟨c, hc, rfl⟩ := ha
  obtain ⟨d, hd, rfl⟩ := hq
  by_cases hcd : c = d
  · exact .inl (by rw [hcd])
  rcases mem_path_total hc hd with h | h
  · exact .inr (.inl ⟨c, mem_path_parent h hcd, rfl⟩)
  · exact .inr (.inr ⟨d, mem_path_parent h (Ne.symm hcd), rfl⟩)

theorem Below.trans (h : T.Below a q) (h' : T.Below q v) : T.Below a v :=
  h.trans_path ((below_iff h.mem.2).mp h').1

/-! ## One more mark -/

theorem reached_concat : T.Reached (V ++ [v]) q ↔ T.Reached V q ∨ T.Below q v := by
  simp [Reached, or_and_right, exists_or]

theorem deep_concat (hv : v ∈ T.nodes) (hr : v ≠ T.root) :
    T.Deep (V ++ [v]) q ↔ T.Deep V q ∨ T.Below q (T.parent v) := by
  have hiff : (T.Below q v ∧ T.parent v ≠ q) ↔ T.Below q (T.parent v) := by
    constructor
    · rintro ⟨hbelow, hne⟩
      exact below_parent_of_below hbelow hne
    rintro ⟨c, hc, hcq⟩
    refine ⟨⟨c, mem_path_iff.mpr ⟨⟨hv, hr⟩, .inr hc⟩, hcq⟩, ?_⟩
    rintro rfl
    exact not_below_self ⟨c, hc, hcq⟩
  rw [← hiff]
  simp [Deep, or_and_right, exists_or]

theorem firstDirect_concat : T.FirstDirect (V ++ [v]) q ↔
      T.FirstDirect V q ∨ (¬ T.Reached V q ∧ T.Below q v ∧ T.parent v = q) := by
  rw [FirstDirect, FirstDirect, List.find?_append]
  cases hfind : V.find? fun v => decide (T.Below q v) with
  | some w =>
    have hreached : T.Reached V q := ⟨w, (of_find?_below hfind).1, (of_find?_below hfind).2⟩
    simp [hreached]
  | none =>
    have hreached : ¬ T.Reached V q := by
      rintro ⟨w, hw, hbelow⟩
      exact List.find?_eq_none.mp hfind w hw (decide_eq_true hbelow)
    by_cases hbelow : T.Below q v <;> simp [hreached, hbelow]

theorem deep_concat_of_invalid (hv : ¬ (v ∈ T.nodes ∧ v ≠ T.root)) :
    T.Deep (V ++ [v]) q ↔ T.Deep V q := by
  have hbelow : ¬ T.Below q v := fun h => hv h.mem
  simp [Deep, or_and_right, exists_or, hbelow]

/-- A mark outside the tree, or on its root, changes nothing. -/
theorem degree_concat_of_invalid (hv : ¬ (v ∈ T.nodes ∧ v ≠ T.root)) :
    T.degree (V ++ [v]) q = T.degree V q := by
  have hbelow : ∀ q, ¬ T.Below q v := fun q h => hv h.mem
  refine sum_congr rfl fun c _ => ?_
  have hf : T.FirstDirect (V ++ [v]) c ↔ T.FirstDirect V c := by
    rw [firstDirect_concat]
    simp [hbelow]
  simp only [weight, hf, deep_concat_of_invalid hv]

/-- A mark under a parent that was reached before changes nothing. -/
theorem degree_concat_of_reached (hv : v ∈ T.nodes) (hr : v ≠ T.root)
    (h : T.Reached V (T.parent v)) : T.degree (V ++ [v]) q = T.degree V q := by
  refine sum_congr rfl fun c _ => ?_
  have hf : T.FirstDirect (V ++ [v]) c ↔ T.FirstDirect V c := by
    rw [firstDirect_concat]
    refine or_iff_left ?_
    rintro ⟨hnot, -, rfl⟩
    exact hnot h
  have hd : T.Deep (V ++ [v]) c ↔ T.Deep V c := by
    rw [deep_concat hv hr]
    exact or_iff_left_of_imp h.deep_of_below
  simp only [weight, hf, hd]

/-- The nodes a walk from `p` passes: it stops below the first node that was deep. -/
def Passed (T : RootedTree α) (V : List α) (p c : α) : Prop := c ∈ T.path p ∧ (c = p ∨ ¬ T.Deep V c)

instance (V : List α) (p c : α) : Decidable (T.Passed V p c) :=
  inferInstanceAs (Decidable (c ∈ T.path p ∧ (c = p ∨ ¬ T.Deep V c)))

/-- The nodes a walk from `p` arrives at. -/
def Arrives (T : RootedTree α) (V : List α) (p q : α) : Prop :=
  ∃ c ∈ T.path p, T.parent c = q ∧ T.Passed V p c

instance (V : List α) (p q : α) : Decidable (T.Arrives V p q) :=
  inferInstanceAs (Decidable (∃ c ∈ T.path p, T.parent c = q ∧ T.Passed V p c))

theorem not_arrives_root : ¬ T.Arrives V T.root q := by
  rintro ⟨c, hc, -⟩
  rw [path_root] at hc
  cases hc

theorem Arrives.below (h : T.Arrives V p q) : T.Below q p := by
  obtain ⟨c, hc, hcq, -⟩ := h
  exact ⟨c, hc, hcq⟩

/-- The walk arrives at everything above it that was not deep. -/
theorem arrives_or_deep (h : T.Below q p) : T.Arrives V p q ∨ T.Deep V q := by
  obtain ⟨c, hc, hcq⟩ := h
  have hm := mem_of_mem_path hc
  by_cases hd : T.Deep V c
  · exact .inr (deep_iff.mpr ⟨c, ⟨hm.1, hm.2, hcq⟩, hd.reached⟩)
  · exact .inl ⟨c, hc, hcq, hc, .inr hd⟩

/-- The walk stops at a node that was deep. -/
theorem arrives_of_deep (hp : p ∈ T.nodes) (hr : p ≠ T.root) (hd : T.Deep V (T.parent p)) :
    T.Arrives V p q ↔ q = T.parent p := by
  constructor
  · rintro ⟨c, hc, rfl, hpass⟩
    rcases hpass.2 with rfl | hnot
    · rfl
    by_cases hcp : c = p
    · rw [hcp]
    -- everything above a deep node is deep
    have hcparent := mem_path_parent hc hcp
    have hm := mem_of_mem_path hc
    by_cases hceq : c = T.parent p
    · exact absurd (hceq ▸ hd) hnot
    · exact absurd (hd.reached.deep_of_below ((below_iff hm.2).mpr ⟨hcparent, hceq⟩)) hnot
  · rintro rfl
    exact ⟨p, self_mem_path hp hr, rfl, self_mem_path hp hr, .inl rfl⟩

/-- The walk goes on from a node that was not deep. -/
theorem arrives_of_not_deep (hp : p ∈ T.nodes) (hr : p ≠ T.root) (hd : ¬ T.Deep V (T.parent p)) :
    T.Arrives V p q ↔ q = T.parent p ∨ T.Arrives V (T.parent p) q := by
  constructor
  · rintro ⟨c, hc, rfl, hpass⟩
    by_cases hcp : c = p
    · exact .inl (by rw [hcp])
    have hcparent := mem_path_parent hc hcp
    exact .inr ⟨c, hcparent, rfl, hcparent, .inr (hpass.2.resolve_left hcp)⟩
  rintro (rfl | ⟨c, hc, rfl, hpass⟩)
  · exact ⟨p, self_mem_path hp hr, rfl, self_mem_path hp hr, .inl rfl⟩
  · have hcp : c ∈ T.path p := mem_path_iff.mpr ⟨⟨hp, hr⟩, .inr hc⟩
    refine ⟨c, hcp, rfl, hcp, .inr ?_⟩
    rcases hpass.2 with rfl | hnot
    · exact hd
    · exact hnot

private theorem weight_concat (hv : v ∈ T.nodes) (hr : v ≠ T.root)
    (h : ¬ T.Reached V (T.parent v)) (hc : c ≠ T.root) :
    T.weight (V ++ [v]) c = T.weight V c + if T.Passed V (T.parent v) c then 1 else 0 := by
  have hd := deep_concat (V := V) (q := c) hv hr
  have hf := firstDirect_concat (T := T) (V := V) (v := v) (q := c)
  by_cases hcp : c = T.parent v
  · -- the parent itself: first reached now, by its child
    subst hcp
    have hnotf : ¬ T.FirstDirect V (T.parent v) := fun hfd => h (reached_iff.mpr (.inl hfd))
    have hnotd : ¬ T.Deep V (T.parent v) := fun hdp => h hdp.reached
    have hirr : ¬ T.Below (T.parent v) (T.parent v) := fun hb => ((below_iff hc).mp hb).2 rfl
    have hpass : T.Passed V (T.parent v) (T.parent v) :=
      ⟨self_mem_path (T.parent_mem v hv hr) hc, .inl rfl⟩
    have hf' : T.FirstDirect (V ++ [v]) (T.parent v) := hf.mpr (.inr ⟨h, below_parent hv hr, rfl⟩)
    have hd' : ¬ T.Deep (V ++ [v]) (T.parent v) := fun hdp => (hd.mp hdp).elim hnotd hirr
    simp [weight, hf', hd', hnotf, hnotd, hpass]
  -- above the parent: passed when the node becomes deep
  have hf' : T.FirstDirect (V ++ [v]) c ↔ T.FirstDirect V c := by
    rw [hf]
    exact or_iff_left fun hh => hcp hh.2.2.symm
  have hpass : T.Passed V (T.parent v) c ↔ T.Below c (T.parent v) ∧ ¬ T.Deep V c := by
    rw [Passed, below_iff hc]
    simp [hcp]
  by_cases hdc : T.Deep V c
  · simp [weight, hf', hd, hpass, hdc]
  simp only [weight, hf', hd, hpass, hdc, false_or, not_false_eq_true, and_true, if_false,
    Nat.add_zero]

/-- A mark under a parent that was not reached before adds one to the degree of every node
    the walk arrives at. -/
theorem degree_concat (hv : v ∈ T.nodes) (hr : v ≠ T.root) (h : ¬ T.Reached V (T.parent v)) :
    T.degree (V ++ [v]) q = T.degree V q + if T.Arrives V (T.parent v) q then 1 else 0 := by
  have hsum : T.degree (V ++ [v]) q =
      ∑ c ∈ T.children q, (T.weight V c + if T.Passed V (T.parent v) c then 1 else 0) :=
    sum_congr rfl fun c hc => weight_concat hv hr h (mem_children.mp hc).2.1
  rw [hsum, sum_add_distrib, degree]
  congr 1
  split
  · rename_i hex
    obtain ⟨c, hc, hcq, hpass⟩ := hex
    have hm := mem_of_mem_path hc
    -- a path passes a node through one child only
    rw [sum_eq_single c, if_pos hpass]
    · intro d hd hne
      refine if_neg fun hpass' => hne ?_
      exact child_unique hpass'.1 hc (mem_children.mp hd).2.2 hcq
    · intro hnot
      exact absurd (mem_children.mpr ⟨hm.1, hm.2, hcq⟩) hnot
  rename_i hex
  refine sum_eq_zero fun c hc => if_neg fun hpass => hex ?_
  exact ⟨c, hpass.1, (mem_children.mp hc).2.2, hpass⟩

end RootedTree

end SavannahNode
