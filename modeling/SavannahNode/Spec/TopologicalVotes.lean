import SavannahNode.ForStd.Descents
import SavannahNode.Spec.TopologicalTree
import Mathlib.Data.Finset.Max

/-!
# Counting the votes of a poll

`calculateInDegree` and `pushVotes` sort the voted part of the block tree topologically
and add up the votes below each block.

The in-degrees are those of `RootedTree.degree`, which counts a block twice when the first
vote below it is for one of its children and a later one is deeper. Such a block's parent
is never popped, so the votes stop there.

## Key results

- `Topological.calculateInDegree_spec`: the in-degrees, leaves and direct votes
- `Topological.pushVotes_spec`: popping ends with no leaf left
- `Topological.voteStack_spec`: the stack is a path of majorities, all of them when nothing
  blocks the way to the head
- `Topological.pushVotes_transitive`: the stack is right exactly when no block is counted twice
  or the head has no majority below it
-/

namespace SavannahNode

open Bag Finset List SavannahNode.RootedTree Votes

namespace Topological

variable {ts : Topological} {T : RootedTree ID}

/-- The blocks are the nodes of the tree `T`, which gives their parents. Only its root is
    accepted. This is all that counting votes needs of the blocks. -/
structure Planted (ts : Topological) (T : RootedTree ID) : Prop where
  nodes_eq : T.nodes = ts.blocks.keys
  accepted_iff : ∀ id n, ts.blocks.lookup id = some n →
    (n.accepted ts.decidables = true ↔ id = T.root)
  blk : ∀ id n, ts.blocks.lookup id = some n → id ≠ T.root →
    ∃ b, n.blk = some b ∧ b.parent = T.parent id

instance (ts : Topological) (T : RootedTree ID) : Decidable (Planted ts T) :=
  decidable_of_iff (T.nodes = ts.blocks.keys ∧ ∀ id ∈ T.nodes, ∀ n ∈ ts.blocks.lookup id,
      (n.accepted ts.decidables = true ↔ id = T.root) ∧
        (id ≠ T.root → n.blk.map Block.parent = some (T.parent id))) <| by
    constructor
    · rintro ⟨hnodes, hall⟩
      have hmem : ∀ id n, ts.blocks.lookup id = some n → id ∈ T.nodes := fun id n hn => by
        rw [hnodes, Finmap.mem_keys_iff]
        exact ⟨n, hn⟩
      refine ⟨hnodes, fun id n hn => (hall id (hmem id n hn) n hn).1, fun id n hn hr => ?_⟩
      exact Option.map_eq_some_iff.mp ((hall id (hmem id n hn) n hn).2 hr)
    intro h
    refine ⟨h.nodes_eq, fun id _ n hn => ⟨h.accepted_iff id n hn, fun hr => ?_⟩⟩
    exact Option.map_eq_some_iff.mpr (h.blk id n hn hr)

theorem Shape.planted (h : Shape ts T) : Planted ts T where
  nodes_eq := h.nodes_eq
  accepted_iff id n hn := by rw [h.root_eq, h.accepted_iff hn]
  blk id n hn hr := by
    obtain ⟨b, hb, -, hparent, -⟩ := h.blk id n hn (h.root_eq ▸ hr)
    exact ⟨b, hb, hparent⟩

theorem Planted.mem_iff (h : Planted ts T) {id : ID} :
    id ∈ T.nodes ↔ ∃ n, ts.blocks.lookup id = some n := by
  rw [h.nodes_eq, Finmap.mem_keys_iff]

/-- The block of a node other than the root. -/
theorem Planted.exists_blk (h : Planted ts T) {id : ID} (hid : id ∈ T.nodes) (hr : id ≠ T.root) :
    ∃ n b, ts.blocks.lookup id = some n ∧ n.accepted ts.decidables = false ∧ n.blk = some b ∧
      b.parent = T.parent id := by
  obtain ⟨n, hn⟩ := h.mem_iff.mp hid
  obtain ⟨b, hb, hparent⟩ := h.blk id n hn hr
  have hacc : n.accepted ts.decidables = false :=
    Bool.eq_false_iff.mpr fun hacc => hr ((h.accepted_iff id n hn).mp hacc)
  exact ⟨n, b, hn, hacc, hb, hparent⟩

end Topological

namespace Kahn

theorem node_setNode (k : Kahn) (id q : ID) (node : KahnNode) :
    (k.setNode id node).node q = if q = id then node else k.node q := by
  rw [Kahn.node, setNode]
  by_cases hq : q = id
  · subst hq
    simp
  · simp [hq, Kahn.node]

theorem isSome_setNode (k : Kahn) (id q : ID) (node : KahnNode) :
    ((k.setNode id node).kahnNodes q).isSome = true ↔ (k.kahnNodes q).isSome = true ∨ q = id := by
  rw [setNode]
  by_cases hq : q = id
  · subst hq
    simp
  · simp [hq]

@[simp] theorem leaves_setNode (k : Kahn) (id : ID) (node : KahnNode) :
    (k.setNode id node).leaves = k.leaves := rfl

end Kahn

namespace Topological

variable {ts : Topological} {T : RootedTree ID}

/-! ## The walk to the ancestors -/

/-- What a walk from `p` does to the sort, when the votes `V` were counted before it. -/
structure Marked (T : RootedTree ID) (V : List ID) (p : ID) (k k' : Kahn) : Prop where
  inDegree : ∀ q, (k'.node q).inDegree = (k.node q).inDegree + if T.Arrives V p q then 1 else 0
  votes : ∀ q, (k'.node q).votes = (k.node q).votes
  isSome : ∀ q, (k'.kahnNodes q).isSome = true ↔ (k.kahnNodes q).isSome = true ∨ T.Arrives V p q
  mem_leaves : ∀ q, q ∈ k'.leaves ↔ q ∈ k.leaves ∧ ¬ (T.Arrives V p q ∧ ¬ T.Deep V q)

/-- The walk through all ancestors, as far as it goes, arrives where `Arrives` says. -/
theorem markAncestorInDegrees_spec (h : Planted ts T) (V : List ID) :
    ∀ p ∈ T.nodes, ∀ (k : Kahn) (fuel : Nat), (T.path p).length < fuel →
      (∀ q, T.Below q p → (k.node q).inDegree = T.degree V q) →
      ∃ k', ts.markAncestorInDegrees fuel p k = some k' ∧ Marked T V p k k' := by
  refine T.induction ?_ ?_
  · -- the head is accepted: the walk is over
    intro k fuel hfuel _
    obtain ⟨fuel, rfl⟩ := Nat.exists_eq_add_one_of_ne_zero (Nat.ne_of_gt (Nat.zero_lt_of_lt hfuel))
    obtain ⟨n, hn⟩ := h.mem_iff.mp T.root_mem
    have hacc := (h.accepted_iff _ n hn).mpr rfl
    refine ⟨k, ?_, ?_⟩
    · rw [markAncestorInDegrees, hn]
      simp [hacc]
    · exact ⟨by simp [not_arrives_root], fun _ => rfl,
        by simp [not_arrives_root], by simp [not_arrives_root]⟩
  · intro p hp hr ih k fuel hfuel hdeg
    obtain ⟨fuel, rfl⟩ := Nat.exists_eq_add_one_of_ne_zero (Nat.ne_of_gt (Nat.zero_lt_of_lt hfuel))
    rw [T.path_cons hp hr, length_cons] at hfuel
    obtain ⟨n, b, hn, hacc, hb, hparent⟩ := h.exists_blk hp hr
    have hbelow := below_parent hp hr
    have hdegp := hdeg _ hbelow
    -- the state after the edge from `p` was counted
    set k1 := k.setNode (T.parent p)
      { k.node (T.parent p) with inDegree := (k.node (T.parent p)).inDegree + 1 } with hk1
    have hdegree : ∀ q, (k1.node q).inDegree =
        (k.node q).inDegree + if q = T.parent p then 1 else 0 := fun q => by
      rw [Kahn.node_setNode]
      split <;> simp [*]
    have hvotes : ∀ q, (k1.node q).votes = (k.node q).votes := fun q => by
      rw [Kahn.node_setNode]
      split <;> simp [*]
    have hsome : ∀ q, (k1.kahnNodes q).isSome = true ↔
        (k.kahnNodes q).isSome = true ∨ q = T.parent p := fun q => Kahn.isSome_setNode ..
    have hrun : ts.markAncestorInDegrees (fuel + 1) p k =
        if (k.node (T.parent p)).inDegree + 1 ≠ 1 then some k1
        else ts.markAncestorInDegrees fuel (T.parent p)
          { k1 with leaves := k1.leaves.erase (T.parent p) } := by
      rw [markAncestorInDegrees, hn]
      simp only [Option.bind_eq_bind, Option.bind_some, hacc, hb, hparent, Bool.false_eq_true,
        if_false]
      rfl
    by_cases hd : T.Deep V (T.parent p)
    · have hpos := degree_pos_iff.mpr hd
      have harr : ∀ q, T.Arrives V p q ↔ q = T.parent p := fun q => arrives_of_deep hp hr hd
      refine ⟨k1, by rw [hrun, if_pos (by omega)], ?_, hvotes, ?_, ?_⟩
      · intro q
        simp only [hdegree, harr]
      · intro q
        rw [hsome, harr]
      intro q
      rw [harr, hk1, Kahn.leaves_setNode]
      grind
    have hzero := degree_eq_zero_iff.mpr hd
    have harr : ∀ q, T.Arrives V p q ↔ q = T.parent p ∨ T.Arrives V (T.parent p) q :=
      fun q => arrives_of_not_deep hp hr hd
    have hself : ∀ q, T.Below q (T.parent p) → q ≠ T.parent p := fun q hq heq =>
      not_below_self (heq ▸ hq)
    have hup : ∀ q, T.Arrives V (T.parent p) q → T.Below q (T.parent p) := fun q ha => ha.below
    obtain ⟨k', hk', hmark⟩ := ih { k1 with leaves := k1.leaves.erase (T.parent p) } fuel
      (by omega) (fun q hq => by
        have hqp : T.Below q p := by
          obtain ⟨c, hc, hcq⟩ := hq
          exact ⟨c, mem_path_iff.mpr ⟨⟨hp, hr⟩, .inr hc⟩, hcq⟩
        rw [← hdeg q hqp]
        exact (hdegree q).trans (by rw [if_neg (hself q hq), Int.add_zero]))
    have hnode : ∀ q, Kahn.node { k1 with leaves := k1.leaves.erase (T.parent p) } q = k1.node q :=
      fun _ => rfl
    refine ⟨k', by rw [hrun, if_neg (by omega), hk'], ?_, ?_, ?_, ?_⟩
    · intro q
      rw [hmark.inDegree, hnode, hdegree, Int.add_assoc]
      grind
    · intro q
      rw [hmark.votes, hnode, hvotes]
    · intro q
      rw [hmark.isSome, harr, hsome, or_assoc]
    intro q
    rw [hmark.mem_leaves, harr, mem_erase, hk1, Kahn.leaves_setNode]
    grind

/-! ## Counting all votes -/

/-- The sort after the votes `V` of the bag were counted. -/
structure Counts (T : RootedTree ID) (votes : Bag) (V : List ID) (k : Kahn) : Prop where
  isSome : ∀ q, (k.kahnNodes q).isSome = true ↔ T.Reached V q
  inDegree : ∀ q, (k.node q).inDegree = T.degree V q
  mem_leaves : ∀ q, q ∈ k.leaves ↔ T.Reached V q ∧ ¬ T.Deep V q
  countWhere : ∀ q P, (k.node q).votes.countWhere P =
    votes.countWhere fun v => decide (v ∈ V ∧ T.IsChild q v) && P v

/-- One more vote adds its count where it is selected. -/
private theorem countWhere_concat (votes : Bag) {V : List ID} {v : ID} (hv : v ∉ V) (R : ID → Prop)
    [DecidablePred R] (P : ID → Bool) :
    (votes.countWhere fun x => decide (x ∈ V ++ [v] ∧ R x) && P x) =
      (votes.countWhere fun x => decide (x ∈ V ∧ R x) && P x) +
        if R v ∧ P v = true then votes.count v else 0 := by
  split
  · rename_i hsel
    rw [← countWhere_or_key votes (P := fun x => decide (x ∈ V ∧ R x) && P x) (by simp [hv])]
    refine countWhere_congr fun x _ => ?_
    by_cases hx : x = v
    · subst hx
      simp [hsel]
    · simp [hx]
  rename_i hsel
  rw [Nat.add_zero]
  refine countWhere_congr fun x _ => ?_
  by_cases hx : x = v
  · subst hx
    by_cases hR : R x
    · have hP : P x = false := Bool.eq_false_iff.mpr fun hP => hsel ⟨hR, hP⟩
      simp [hP]
    · simp [hR]
  · simp [hx]

variable {votes : Bag} {k : Kahn} {alpha : Int} {stack : List Votes}

/-- A vote for a block outside the tree, or for the head, changes nothing. -/
theorem Counts.dropped {V : List ID} {v : ID} (hv : v ∉ V) (hvalid : ¬(v ∈ T.nodes ∧ v ≠ T.root))
    (hk : Counts T votes V k) : Counts T votes (V ++ [v]) k where
  isSome q := by
    rw [hk.isSome, reached_concat, or_iff_left fun hq => hvalid hq.mem]
  inDegree q := by rw [hk.inDegree, degree_concat_of_invalid hvalid]
  mem_leaves q := by
    rw [hk.mem_leaves, reached_concat, deep_concat_of_invalid hvalid,
      or_iff_left fun hq => hvalid hq.mem]
  countWhere q P := by
    rw [hk.countWhere, countWhere_concat votes hv (T.IsChild q) P,
      if_neg fun hh => hvalid ⟨hh.1.1, hh.1.2.1⟩, Nat.add_zero]

/-- Counting one vote. -/
theorem countVote_spec (h : Planted ts T) {V : List ID} {v : ID} (hv : v ∉ V)
    (hk : Counts T votes V k) :
    ∃ k', ts.countVote votes k v = some k' ∧ Counts T votes (V ++ [v]) k' := by
  by_cases hvalid : v ∈ T.nodes ∧ v ≠ T.root
  · obtain ⟨hvm, hvr⟩ := hvalid
    obtain ⟨n, b, hn, hacc, hb, hparent⟩ := h.exists_blk hvm hvr
    set p := T.parent v with hp
    have hpm : p ∈ T.nodes := T.parent_mem v hvm hvr
    set k1 := k.setNode p
      { k.node p with votes := (k.node p).votes.addCount v (votes.count v) } with hk1
    have hrun : ts.countVote votes k v = if (k.kahnNodes p).isSome = true then some k1
        else ts.markAncestorInDegrees ts.blocks.keys.card p
          { k1 with leaves := insert p k1.leaves } := by
      rw [countVote, hn]
      simp only [Option.bind_eq_bind, Option.bind_some, hacc, hb, hparent, Bool.false_eq_true,
        if_false]
      rfl
    -- the vote is added to its parent's bag, and nothing else changes
    have hdeg : ∀ q, (k1.node q).inDegree = T.degree V q := by
      intro q
      rw [Kahn.node_setNode, ← hk.inDegree]
      split <;> simp [*]
    have hsome : ∀ q, (k1.kahnNodes q).isSome = true ↔ T.Reached V q ∨ q = p := fun q => by
      rw [Kahn.isSome_setNode, hk.isSome]
    have hcount : ∀ q P, (k1.node q).votes.countWhere P =
        votes.countWhere fun x => decide (x ∈ V ++ [v] ∧ T.IsChild q x) && P x := by
      intro q P
      have hchild : T.IsChild q v ↔ q = p := ⟨fun hc => hc.2.2.symm, fun hq => ⟨hvm, hvr, hq.symm⟩⟩
      rw [countWhere_concat votes hv (T.IsChild q) P, Kahn.node_setNode]
      simp only [hchild]
      by_cases hq : q = p
      · subst hq
        rw [if_pos rfl, countWhere_addCount, hk.countWhere]
        simp
      · rw [if_neg hq, hk.countWhere, if_neg fun hh => hq hh.1, Nat.add_zero]
    -- what the vote reaches, and what it is below
    have hreached : ∀ q, T.Reached (V ++ [v]) q ↔ T.Reached V q ∨ q = p ∨ T.Below q p := fun q => by
      rw [reached_concat, below_iff_parent hvm hvr]
    have hdeep : ∀ q, T.Deep (V ++ [v]) q ↔ T.Deep V q ∨ T.Below q p := fun q =>
      deep_concat hvm hvr
    have hsub : ∀ q, T.Deep V q → T.Reached V q := fun q hd => hd.reached
    by_cases hreach : T.Reached V p
    · -- the parent was seen before
      have habove : ∀ q, T.Below q p → T.Deep V q := fun q => hreach.deep_of_below
      refine ⟨k1, by rw [hrun, if_pos ((hk.isSome p).mpr hreach)], ?_, ?_, ?_, hcount⟩
      · grind
      · intro q
        rw [hdeg, degree_concat_of_reached hvm hvr hreach]
      intro q
      have hleaves : q ∈ k1.leaves ↔ _ := hk.mem_leaves q
      grind
    -- a new leaf, and a walk from it
    have hfuel : (T.path p).length < ts.blocks.keys.card := h.nodes_eq ▸ T.length_path_lt p
    obtain ⟨k', hk', hmark⟩ := markAncestorInDegrees_spec h V p hpm
      { k1 with leaves := insert p k1.leaves } _ hfuel fun q _ => hdeg q
    have harrives : ∀ q, T.Arrives V p q → T.Below q p := fun q ha => ha.below
    have hwalk : ∀ q, T.Below q p → T.Arrives V p q ∨ T.Deep V q := fun q =>
      arrives_or_deep
    refine ⟨k', by rw [hrun, if_neg fun hs => hreach ((hk.isSome p).mp hs), hk'], ?_, ?_, ?_, ?_⟩
    · intro q
      have hmarked := hmark.isSome q
      grind
    · intro q
      rw [hmark.inDegree]
      show (k1.node q).inDegree + _ = _
      rw [hdeg, degree_concat hvm hvr hreach, ← hp]
      split <;> simp
    · intro q
      have hleaves : q ∈ insert p k1.leaves ↔ q = p ∨ T.Reached V q ∧ ¬T.Deep V q := by
        rw [mem_insert, Kahn.leaves_setNode, hk.mem_leaves]
      have hmarked := hmark.mem_leaves q
      grind
    intro q P
    rw [hmark.votes]
    exact hcount q P
  · refine ⟨k, ?_, hk.dropped hv hvalid⟩
    rw [countVote]
    cases hn : ts.blocks.lookup v with
    | none => rfl
    | some n =>
      have hroot : v = T.root := by
        by_contra hne
        exact hvalid ⟨h.mem_iff.mpr ⟨n, hn⟩, hne⟩
      have hacc := (h.accepted_iff v n hn).mpr hroot
      simp [hacc]

/-- `calculateInDegree` counts every vote of the bag. -/
theorem calculateInDegree_spec (h : Planted ts T) (votes : Bag) :
    ∃ k, ts.calculateInDegree votes = some k ∧ Counts T votes votes.list k := by
  refine foldlM_history (P := fun V k => Counts T votes V k) ?_ ?_
  · have hreach : ∀ q, ¬ T.Reached [] q := fun q => by simp [RootedTree.Reached]
    have hdeg : ∀ q, T.degree [] q = 0 := fun q =>
      degree_eq_zero_iff.mpr fun hd => hreach q hd.reached
    refine ⟨fun q => by simp [hreach], fun q => ?_, fun q => by simp [hreach], fun q P => ?_⟩
    · rw [hdeg]
      rfl
    have hnone : ∀ x ∈ votes.list, (decide (x ∈ ([] : List ID) ∧ T.IsChild q x) && P x) = false :=
      fun x _ => by simp
    rw [countWhere_congr hnone]
    show (∅ : Bag).countWhere P = _
    rw [countWhere_empty, countWhere_false]
  · intro V v rest k hlist hk
    have hnodup : votes.list.Nodup := votes.nodup_keys
    rw [hlist] at hnodup
    have hv : v ∉ V := fun hmem =>
      (nodup_append'.mp hnodup).2.2 hmem mem_cons_self
    exact countVote_spec h hv hk

/-! ## Pushing the votes up -/

/-- The votes for the children of `q` that satisfy `P`, and for what is below them. -/
def childVotes (T : RootedTree ID) (votes : Bag) (q : ID) (P : ID → Bool) : Nat :=
  votes.countWhere fun v => decide (∃ c ∈ T.path v, T.parent c = q ∧ P c = true)

/-- The votes for blocks below `q`. -/
def support (T : RootedTree ID) (votes : Bag) (q : ID) : Nat :=
  votes.countWhere fun v => decide (T.Below q v)

/-- No block other than the head is counted twice: when the first vote below it is for one
    of its children, all of them are. -/
def CountedOnce (T : RootedTree ID) (votes : Bag) : Prop :=
  ∀ c, c ≠ T.root → T.FirstDirect votes.list c → ¬ T.Deep votes.list c

instance (T : RootedTree ID) (votes : Bag) : Decidable (CountedOnce T votes) :=
  decidable_of_iff (∀ c ∈ T.nodes, c ≠ T.root → T.FirstDirect votes.list c →
    ¬ T.Deep votes.list c)
    ⟨fun h c hr hf hd => h c hd.reached.mem hr hf hd, fun h c _ => h c⟩

/-- Nothing keeps the stack from being complete: no block is counted twice, or there are too few
    votes below the head for anything to be on the stack. -/
def Unblocked (T : RootedTree ID) (alpha : Int) (votes : Bag) : Prop :=
  CountedOnce T votes ∨ (support T votes T.root : Int) < alpha

theorem childVotes_true (T : RootedTree ID) (votes : Bag) (q : ID) :
    childVotes T votes q (fun _ => true) = support T votes q := by
  refine countWhere_congr fun v _ => ?_
  rw [decide_eq_decide]
  exact exists_congr fun c => and_congr_right fun _ => and_iff_left rfl

/-- Support grows toward the head. -/
theorem support_le {a q : ID} (h : T.Below a q) : support T votes q ≤ support T votes a :=
  countWhere_mono fun _ _ hq => decide_eq_true (h.trans (of_decide_eq_true hq))

theorem support_le_root (T : RootedTree ID) (votes : Bag) (q : ID) :
    support T votes q ≤ support T votes T.root :=
  countWhere_mono fun _ _ hv => decide_eq_true (below_root_iff.mpr (of_decide_eq_true hv).mem)

/-- Two blocks that both have a majority are comparable. -/
theorem comparable_of_support {k : Int} (hk : k < 2 * alpha) (hlen : (votes.len : Int) ≤ k)
    {a q : ID} (ha : alpha ≤ support T votes a) (hq : alpha ≤ support T votes q) :
    a = q ∨ T.Below a q ∨ T.Below q a := by
  by_contra hnot
  have hadd := countWhere_add_le_len (b := votes) (P := fun v => decide (T.Below a v))
    (Q := fun v => decide (T.Below q v)) fun v hav => by
      rw [decide_eq_false_iff_not]
      exact fun hqv => hnot (below_total (of_decide_eq_true hav) hqv)
  simp only [support] at ha hq
  omega

/-- The sort after the blocks in `popped` were popped. -/
structure Pushed (T : RootedTree ID) (alpha : Int) (votes : Bag) (popped : Finset ID) (k : Kahn)
    (stack : List Votes) : Prop where
  reached : ∀ q ∈ popped, T.Reached votes.list q
  closed : ∀ q ∈ popped, ∀ c, T.IsChild q c → T.Reached votes.list c → c ∈ popped
  once : ∀ q ∈ popped, ∀ c, T.IsChild q c → T.weight votes.list c ≤ 1
  inDegree : ∀ q, (k.node q).inDegree = (T.degree votes.list q : Int) - (T.children q ∩ popped).card
  mem_leaves : ∀ q, q ∈ k.leaves ↔ T.Reached votes.list q ∧ q ∉ popped ∧ (k.node q).inDegree = 0
  countWhere : ∀ q P, (k.node q).votes.countWhere P = votes.countWhere fun v =>
      decide (∃ c ∈ T.path v, T.parent c = q ∧ (c = v ∨ c ∈ popped) ∧ P c = true)
  mem_stack : ∀ q, q ∈ stack.map parentID ↔ q ∈ popped ∧ alpha ≤ support T votes q
  pairwise : (stack.map parentID).Pairwise T.Below
  chain : (stack.map parentID).IsChain fun a b => T.parent b = a
  stack_votes : ∀ vote ∈ stack, ∀ P, vote.votes.countWhere P = childVotes T votes vote.parentID P

/-- Before anything is popped. -/
theorem pushed_empty (hk : Counts T votes votes.list k) : Pushed T alpha votes ∅ k [] where
  reached := by simp
  closed := by simp
  once := by simp
  inDegree := by simp [hk.inDegree]
  mem_leaves q := by
    rw [hk.mem_leaves, hk.inDegree, ← degree_eq_zero_iff]
    simp
  countWhere q P := by
    rw [hk.countWhere]
    refine countWhere_congr fun v hv => ?_
    rw [Bool.eq_iff_iff, Bool.and_eq_true, decide_eq_true_eq, decide_eq_true_eq]
    constructor
    · rintro ⟨⟨-, hchild⟩, hP⟩
      exact ⟨v, self_mem_path hchild.1 hchild.2.1, hchild.2.2, .inl rfl, hP⟩
    rintro ⟨c, hc, hcq, rfl | hc', hP⟩
    · have hm := mem_of_mem_path hc
      exact ⟨⟨hv, hm.1, hm.2, hcq⟩, hP⟩
    · exact absurd hc' (notMem_empty c)
  mem_stack := by simp
  pairwise := by simp
  chain := by simp
  stack_votes := by simp

namespace Pushed

variable {alpha : Int} {votes : Bag} {popped : Finset ID} {k : Kahn} {stack : List Votes}
  (hp : Pushed T alpha votes popped k stack) {leaf : ID}
include hp

theorem inter_subset (q : ID) :
    T.children q ∩ popped ⊆ (T.children q).filter fun c => T.Reached votes.list c := by
  intro c hc
  obtain ⟨hc, hpop⟩ := mem_inter.mp hc
  exact mem_filter.mpr ⟨hc, hp.reached c hpop⟩

/-- The children of a leaf that have votes below them were all popped. -/
theorem mem_of_leaf (hleaf : leaf ∈ k.leaves) {c : ID} (hc : T.IsChild leaf c)
    (hreach : T.Reached votes.list c) : c ∈ popped := by
  have hdeg := ((hp.mem_leaves leaf).mp hleaf).2.2
  rw [hp.inDegree] at hdeg
  have hle := card_reached_le_degree (T := T) (V := votes.list) (q := leaf)
  have heq := eq_of_subset_of_card_le (hp.inter_subset leaf) (by omega)
  have hmem := mem_filter.mpr ⟨mem_children.mpr hc, hreach⟩
  rw [← heq] at hmem
  exact (mem_inter.mp hmem).2

/-- No child of a leaf is counted twice: its edges to the children that were popped are all it
    had. -/
theorem once_of_leaf (hleaf : leaf ∈ k.leaves) {c : ID} (hc : T.IsChild leaf c) :
    T.weight votes.list c ≤ 1 := by
  have hdeg := ((hp.mem_leaves leaf).mp hleaf).2.2
  rw [hp.inDegree] at hdeg
  have hle := card_le_card (hp.inter_subset leaf)
  exact weight_le_one_of_degree_le (by omega) hc

/-- A leaf has all the votes below it. -/
theorem countWhere_leaf (hleaf : leaf ∈ k.leaves) (P : ID → Bool) :
    (k.node leaf).votes.countWhere P = childVotes T votes leaf P := by
  rw [hp.countWhere, childVotes]
  refine countWhere_congr fun v hv => ?_
  rw [decide_eq_decide]
  constructor
  · rintro ⟨c, hc, hcq, -, hP⟩
    exact ⟨c, hc, hcq, hP⟩
  rintro ⟨c, hc, hcq, hP⟩
  refine ⟨c, hc, hcq, ?_, hP⟩
  have hm := mem_of_mem_path hc
  by_cases hcv : c = v
  · exact .inl hcv
  exact .inr (hp.mem_of_leaf hleaf ⟨hm.1, hm.2, hcq⟩ ⟨v, hv, (below_iff hm.2).mpr ⟨hc, hcv⟩⟩)

theorem len_leaf (hleaf : leaf ∈ k.leaves) : (k.node leaf).votes.len = support T votes leaf := by
  rw [len_eq_countWhere, hp.countWhere_leaf hleaf, childVotes_true]

/-- Below a popped block everything with votes below it was popped. -/
theorem mem_of_below {q c : ID} (hq : q ∈ popped) (hbelow : T.Below q c)
    (hreach : T.Reached votes.list c) : c ∈ popped := by
  have hc := hbelow.mem
  revert hbelow hreach
  refine T.induction (P := fun c => T.Below q c → T.Reached votes.list c → c ∈ popped) ?_ ?_ c hc.1
  · exact fun hbelow => absurd rfl hbelow.mem.2
  intro c hc hr ih hbelow hreach
  have hdeep := hreach.deep_of_below (below_parent hc hr)
  rcases (below_iff_parent hc hr).mp hbelow with rfl | hbelow
  · exact hp.closed _ hq c ⟨hc, hr, rfl⟩ hreach
  · exact hp.closed _ (ih hbelow hdeep.reached) c ⟨hc, hr, rfl⟩ hreach

variable {alphaK : Int}

/-- What a leaf with a majority is pushed on lies below it, its child on top. -/
theorem below_stack (hk : alphaK < 2 * alpha) (hlen : (votes.len : Int) ≤ alphaK)
    (hleaf : leaf ∈ k.leaves) (hsupp : alpha ≤ support T votes leaf) {top : Votes}
    {rest : List Votes} (hstack : stack = top :: rest) :
    T.parent top.parentID = leaf ∧ T.Below leaf top.parentID := by
  obtain ⟨hreach, hnot, -⟩ := (hp.mem_leaves leaf).mp hleaf
  have htop := (hp.mem_stack top.parentID).mp (by simp [hstack])
  have hpair := hp.pairwise
  rw [hstack, List.map_cons, List.pairwise_cons] at hpair
  -- the leaf is not below the top of the stack, or it would have been popped before
  have hbelow : T.Below leaf top.parentID := by
    rcases comparable_of_support hk hlen hsupp htop.2 with heq | hb | hb
    · exact absurd (heq ▸ htop.1) hnot
    · exact hb
    · exact absurd (hp.mem_of_below htop.1 hb hreach) hnot
  refine ⟨?_, hbelow⟩
  obtain ⟨c, hc, hcb⟩ := below_iff_child.mp hbelow
  rcases hcb with rfl | hcb
  · exact hc.2.2
  -- the child on the way to the top has a majority and was popped: it is on the stack
  have hcreach := ((hp.reached _ htop.1).deep_of_below hcb).reached
  have hcpop := hp.mem_of_leaf hleaf hc hcreach
  have hcsupp : alpha ≤ support T votes c := by
    have hle : support T votes top.parentID ≤ support T votes c := support_le hcb
    omega
  have hcmem := (hp.mem_stack c).mpr ⟨hcpop, hcsupp⟩
  rw [hstack, List.map_cons, List.mem_cons] at hcmem
  rcases hcmem with rfl | hcmem
  · exact absurd hcb not_below_self
  · exact absurd (hcb.trans (hpair.1 c hcmem)) not_below_self

/-- The stack after a leaf was popped. -/
theorem pop_stack (hk : alphaK < 2 * alpha) (hlen : (votes.len : Int) ≤ alphaK)
    (hleaf : leaf ∈ k.leaves) :
    let stack' := if alpha ≤ (k.node leaf).votes.len then
      { parentID := leaf, votes := (k.node leaf).votes } :: stack else stack
    (∀ q, q ∈ stack'.map parentID ↔ q ∈ insert leaf popped ∧ alpha ≤ support T votes q) ∧
    (stack'.map parentID).Pairwise T.Below ∧
    ((stack'.map parentID).IsChain fun a b => T.parent b = a) ∧
    ∀ vote ∈ stack', ∀ P, vote.votes.countWhere P = childVotes T votes vote.parentID P := by
  intro stack'
  have hlen' := hp.len_leaf hleaf
  by_cases hsupp : alpha ≤ (k.node leaf).votes.len
  · have hstack' : stack' = { parentID := leaf, votes := (k.node leaf).votes } :: stack :=
      if_pos hsupp
    rw [hlen'] at hsupp
    rw [hstack']
    refine ⟨?_, ?_, ?_, ?_⟩
    · intro q
      rw [List.map_cons, List.mem_cons, hp.mem_stack, mem_insert]
      constructor
      · rintro (rfl | hq)
        · exact ⟨.inl rfl, hsupp⟩
        · exact ⟨.inr hq.1, hq.2⟩
      rintro ⟨rfl | hq, hsq⟩
      · exact .inl rfl
      · exact .inr ⟨hq, hsq⟩
    · rw [List.map_cons, List.pairwise_cons]
      refine ⟨fun b hb => ?_, hp.pairwise⟩
      cases hst : stack with
      | nil => simp [hst] at hb
      | cons top rest =>
        have htop := (hp.below_stack hk hlen hleaf hsupp hst).2
        have hpair := hp.pairwise
        rw [hst, List.map_cons, List.pairwise_cons] at hpair
        rw [hst, List.map_cons, List.mem_cons] at hb
        rcases hb with rfl | hb
        · exact htop
        · exact htop.trans (hpair.1 b hb)
    · cases hst : stack with
      | nil => simp
      | cons top rest =>
        have hchain := hp.chain
        rw [hst, List.map_cons] at hchain
        rw [List.map_cons, List.map_cons, List.isChain_cons_cons]
        exact ⟨(hp.below_stack hk hlen hleaf hsupp hst).1, hchain⟩
    · intro vote hvote P
      rcases mem_cons.mp hvote with rfl | hvote
      · exact hp.countWhere_leaf hleaf P
      · exact hp.stack_votes vote hvote P
  · have hstack' : stack' = stack := if_neg hsupp
    rw [hlen'] at hsupp
    rw [hstack']
    refine ⟨fun q => ?_, hp.pairwise, hp.chain, hp.stack_votes⟩
    rw [hp.mem_stack, mem_insert]
    refine ⟨fun hq => ⟨.inr hq.1, hq.2⟩, ?_⟩
    rintro ⟨rfl | hq, hsq⟩
    · exact absurd hsq hsupp
    · exact ⟨hq, hsq⟩

/-- The popped blocks stay closed, and no child of theirs is counted twice. -/
theorem pop_closed (hleaf : leaf ∈ k.leaves) : (∀ q ∈ insert leaf popped, T.Reached votes.list q) ∧
    (∀ q ∈ insert leaf popped, ∀ c, T.IsChild q c → T.Reached votes.list c →
      c ∈ insert leaf popped) ∧
    ∀ q ∈ insert leaf popped, ∀ c, T.IsChild q c → T.weight votes.list c ≤ 1 := by
  refine ⟨fun q hq => ?_, fun q hq c hc hreach => ?_, fun q hq c hc => ?_⟩
  · rcases mem_insert.mp hq with rfl | hq
    · exact ((hp.mem_leaves q).mp hleaf).1
    · exact hp.reached q hq
  · rcases mem_insert.mp hq with rfl | hq
    · exact mem_insert_of_mem (hp.mem_of_leaf hleaf hc hreach)
    · exact mem_insert_of_mem (hp.closed q hq c hc hreach)
  · rcases mem_insert.mp hq with rfl | hq
    · exact hp.once_of_leaf hleaf hc
    · exact hp.once q hq c hc

/-- A popped block's edge counts only for its parent. -/
theorem pop_inter (hleaf : leaf ∈ k.leaves) (q : ID) : (T.children q ∩ insert leaf popped).card =
      (T.children q ∩ popped).card + if T.IsChild q leaf then 1 else 0 := by
  have hnot := ((hp.mem_leaves leaf).mp hleaf).2.1
  by_cases hchild : T.IsChild q leaf
  · rw [if_pos hchild, inter_insert_of_mem (mem_children.mpr hchild),
      card_insert_of_notMem fun hmem => hnot (mem_inter.mp hmem).2]
  rw [if_neg hchild, inter_insert_of_notMem fun hmem =>
    hchild (mem_children.mp hmem), Nat.add_zero]

/-- The votes pushed to a block: those below the popped child come in. -/
theorem pop_countWhere (hleaf : leaf ∈ k.leaves) (q : ID) (P : ID → Bool) :
    (votes.countWhere fun v =>
      decide (∃ c ∈ T.path v, T.parent c = q ∧ (c = v ∨ c ∈ insert leaf popped) ∧ P c = true)) =
    (k.node q).votes.countWhere P +
      if T.IsChild q leaf ∧ P leaf = true then support T votes leaf else 0 := by
  have hnot := ((hp.mem_leaves leaf).mp hleaf).2.1
  rw [hp.countWhere]
  by_cases hsel : T.IsChild q leaf ∧ P leaf = true
  · obtain ⟨hchild, hP⟩ := hsel
    rw [if_pos ⟨hchild, hP⟩, support, ← Bag.countWhere_or]
    · refine countWhere_congr fun v _ => ?_
      rw [Bool.eq_iff_iff, Bool.or_eq_true, decide_eq_true_eq, decide_eq_true_eq, decide_eq_true_eq]
      constructor
      · rintro ⟨c, hc, hcq, hcv, hPc⟩
        by_cases hcv' : c = v ∨ c ∈ popped
        · exact .inl ⟨c, hc, hcq, hcv', hPc⟩
        obtain ⟨hne, hnotc⟩ := not_or.mp hcv'
        obtain rfl := (mem_insert.mp (hcv.resolve_left hne)).resolve_right hnotc
        exact .inr ((below_iff hchild.2.1).mpr ⟨hc, hne⟩)
      rintro (⟨c, hc, hcq, hcv, hPc⟩ | hb)
      · exact ⟨c, hc, hcq, hcv.imp_right mem_insert_of_mem, hPc⟩
      · exact ⟨leaf, ((below_iff hchild.2.1).mp hb).1, hchild.2.2, .inr (mem_insert_self _ _), hP⟩
    · -- the votes below the leaf were not pushed before
      intro v hv
      rw [decide_eq_false_iff_not]
      intro hb
      obtain ⟨c, hc, hcq, hcv, -⟩ := of_decide_eq_true hv
      obtain ⟨hpath, hne⟩ := (below_iff hchild.2.1).mp hb
      obtain rfl := child_unique hc hpath hcq hchild.2.2
      exact hcv.elim hne hnot
  · rw [if_neg hsel, Nat.add_zero]
    refine countWhere_congr fun v _ => ?_
    rw [decide_eq_decide]
    constructor
    · rintro ⟨c, hc, hcq, hcv, hPc⟩
      refine ⟨c, hc, hcq, hcv.imp_right fun hmem => ?_, hPc⟩
      refine (mem_insert.mp hmem).resolve_left ?_
      rintro rfl
      have hm := mem_of_mem_path hc
      exact hsel ⟨⟨hm.1, hm.2, hcq⟩, hPc⟩
    · rintro ⟨c, hc, hcq, hcv, hPc⟩
      exact ⟨c, hc, hcq, hcv.imp_right mem_insert_of_mem, hPc⟩

/-- Popping the head, which has no parent to push to. -/
theorem pop_root (hk : alphaK < 2 * alpha) (hlen : (votes.len : Int) ≤ alphaK)
    (hleaf : leaf ∈ k.leaves) (hr : leaf = T.root) :
    Pushed T alpha votes (insert leaf popped) { k with leaves := k.leaves.erase leaf }
      (if alpha ≤ (k.node leaf).votes.len then
        { parentID := leaf, votes := (k.node leaf).votes } :: stack else stack) := by
  have hchild : ∀ q, ¬ T.IsChild q leaf := fun q hc => hc.2.1 hr
  obtain ⟨hmem, hpair, hchain, hvotes⟩ := hp.pop_stack hk hlen hleaf
  obtain ⟨hreach, hclosed, honce⟩ := hp.pop_closed hleaf
  refine ⟨hreach, hclosed, honce, fun q => ?_, fun q => ?_, fun q P => ?_, hmem, hpair, hchain, hvotes⟩
  · rw [hp.pop_inter hleaf, if_neg (hchild q), Nat.add_zero]
    exact hp.inDegree q
  · rw [mem_erase, hp.mem_leaves, mem_insert, not_or]
    tauto
  · rw [hp.pop_countWhere hleaf, if_neg fun hc => hchild q hc.1, Nat.add_zero]
    rfl

/-- Popping another block: its votes and its edge go to its parent. -/
theorem pop_child (hk : alphaK < 2 * alpha) (hlen : (votes.len : Int) ≤ alphaK)
    (hleaf : leaf ∈ k.leaves) (hr : leaf ≠ T.root) {k' : Kahn}
    (hnode : ∀ q, k'.node q = if q = T.parent leaf then
      { inDegree := (k.node (T.parent leaf)).inDegree - 1
        votes := (k.node (T.parent leaf)).votes.addCount leaf (k.node leaf).votes.len }
      else k.node q) (hleaves : ∀ q, q ∈ k'.leaves ↔ (q ≠ leaf ∧ q ∈ k.leaves) ∨
      (q = T.parent leaf ∧ (k.node (T.parent leaf)).inDegree - 1 = 0)) :
    Pushed T alpha votes (insert leaf popped) k'
      (if alpha ≤ (k.node leaf).votes.len then
        { parentID := leaf, votes := (k.node leaf).votes } :: stack else stack) := by
  obtain ⟨hlreach, hlnot, -⟩ := (hp.mem_leaves leaf).mp hleaf
  have hlm := hlreach.mem
  have hchild : ∀ q, T.IsChild q leaf ↔ q = T.parent leaf :=
    fun q => ⟨fun hc => hc.2.2.symm, fun hq => ⟨hlm, hr, hq.symm⟩⟩
  obtain ⟨hmem, hpair, hchain, hvotes⟩ := hp.pop_stack hk hlen hleaf
  obtain ⟨hreach, hclosed, honce⟩ := hp.pop_closed hleaf
  have hdeg : ∀ q, (k'.node q).inDegree =
      (T.degree votes.list q : Int) - (T.children q ∩ insert leaf popped).card := by
    intro q
    rw [hp.pop_inter hleaf, hnode]
    simp only [hchild]
    by_cases hq : q = T.parent leaf
    · subst hq
      rw [if_pos rfl, if_pos rfl, hp.inDegree]
      push_cast
      omega
    rw [if_neg hq, if_neg hq, Nat.add_zero]
    exact hp.inDegree q
  refine ⟨hreach, hclosed, honce, hdeg, fun q => ?_, fun q P => ?_, hmem, hpair, hchain, hvotes⟩
  · rw [hleaves, mem_insert, not_or, hnode]
    by_cases hq : q = T.parent leaf
    · -- the parent still had this edge, so it was not a leaf
      subst hq
      have hpreach := (hlreach.deep_of_below (below_parent hlm hr)).reached
      have hpnot : T.parent leaf ∉ popped :=
        fun hpop => hlnot (hp.closed _ hpop leaf ⟨hlm, hr, rfl⟩ hlreach)
      have hpne : T.parent leaf ≠ leaf := fun heq =>
        not_below_self (heq ▸ below_parent hlm hr)
      have hpleaf : T.parent leaf ∉ k.leaves :=
        fun hl => hlnot (hp.mem_of_leaf hl ⟨hlm, hr, rfl⟩ hlreach)
      simp [hpreach, hpnot, hpne, hpleaf]
    rw [if_neg hq, hp.mem_leaves]
    tauto
  · rw [hp.pop_countWhere hleaf, hnode]
    simp only [hchild]
    by_cases hq : q = T.parent leaf
    · subst hq
      rw [if_pos rfl, countWhere_addCount, hp.len_leaf hleaf]
      simp
    · rw [if_neg hq, if_neg fun hc => hq hc.1, Nat.add_zero]

/-- When no block is counted twice and no leaf is left, everything with votes below it was
    popped. -/
theorem mem_popped (hleaves : k.leaves = ∅) (honce : CountedOnce T votes) {q : ID}
    (hq : T.Reached votes.list q) : q ∈ popped := by
  by_contra hnot
  -- a deepest one that is left would have to be a leaf
  have hne : (T.nodes.filter fun a => T.Reached votes.list a ∧ a ∉ popped).Nonempty :=
    ⟨q, mem_filter.mpr ⟨hq.mem, hq, hnot⟩⟩
  obtain ⟨a, ha, hmax⟩ := exists_max_image _ (fun a => (T.path a).length) hne
  obtain ⟨-, hareach, hanot⟩ := mem_filter.mp ha
  have hdeg := degree_eq_card_reached (T := T) (V := votes.list) (q := a)
    fun c hc => weight_le_one_iff.mpr (honce c hc.2.1)
  have hsub : ((T.children a).filter fun c => T.Reached votes.list c) ⊆ T.children a ∩ popped := by
    intro c hc
    obtain ⟨hc, hcreach⟩ := mem_filter.mp hc
    refine mem_inter.mpr ⟨hc, ?_⟩
    by_contra hcnot
    obtain ⟨hcm, hcr, hcp⟩ := mem_children.mp hc
    have hle := hmax c (mem_filter.mpr ⟨hcm, hcreach, hcnot⟩)
    rw [T.path_cons hcm hcr, hcp, length_cons] at hle
    omega
  have hcard := (hp.inter_subset a).antisymm hsub
  have hleaf : a ∈ k.leaves := by
    rw [hp.mem_leaves, hp.inDegree, hcard, hdeg]
    exact ⟨hareach, hanot, by omega⟩
  rw [hleaves] at hleaf
  exact absurd hleaf (notMem_empty a)

/-- The head is popped only when no block is counted twice. -/
theorem countedOnce_of_root (hroot : T.root ∈ popped) : CountedOnce T votes := by
  intro c hr hfirst hdeep
  have hc := hdeep.reached.mem
  have hreach := (hdeep.reached.deep_of_below (below_parent hc hr)).reached
  -- the parent was popped before the head, with the edge to `c` counted once
  have hparent : T.parent c ∈ popped := by
    by_cases hpr : T.parent c = T.root
    · rw [hpr]
      exact hroot
    · exact hp.mem_of_below hroot (below_root_iff.mpr ⟨hreach.mem, hpr⟩) hreach
  exact weight_le_one_iff.mp (hp.once _ hparent c ⟨hc, hr, rfl⟩) hfirst hdeep

end Pushed

/-- `pushVotes` pops until no leaf is left. -/
theorem pushVotes_spec (h : Planted ts T) (hk : ts.params.k < 2 * ts.params.alpha)
    (hlen : (votes.len : Int) ≤ ts.params.k) (pops : RangeOrder ID) (fuel : Nat)
    {popped : Finset ID} (hp : Pushed T ts.params.alpha votes popped k stack)
    (hfuel : T.nodes.card ≤ fuel + popped.card) :
    ∃ popped' k' stack', ts.pushVotes pops fuel k stack = some stack' ∧
      Pushed T ts.params.alpha votes popped' k' stack' ∧ k'.leaves = ∅ := by
  induction fuel generalizing popped k stack with
  | zero =>
    have hsub : popped ⊆ T.nodes := fun q hq => (hp.reached q hq).mem
    have heq := eq_of_subset_of_card_le hsub (by omega)
    have hleaves : k.leaves = ∅ := by
      refine eq_empty_of_forall_notMem fun q hq => ?_
      obtain ⟨hreach, hnot, -⟩ := (hp.mem_leaves q).mp hq
      exact hnot (heq ▸ hreach.mem)
    exact ⟨popped, k, stack, by rw [pushVotes, if_pos hleaves], hp, hleaves⟩
  | succ fuel ih =>
    cases hlist : pops.list k.leaves with
    | nil =>
      have hleaves := pops.list_eq_nil_iff.mp hlist
      exact ⟨popped, k, stack, by rw [pushVotes, hlist], hp, hleaves⟩
    | cons leaf others =>
      have hleaf : leaf ∈ k.leaves := (pops.mem_list _ _).mp (hlist ▸ mem_cons_self)
      obtain ⟨hreach, hnot, -⟩ := (hp.mem_leaves leaf).mp hleaf
      have hcard := card_insert_of_notMem hnot
      by_cases hr : leaf = T.root
      · obtain ⟨n, hn⟩ := h.mem_iff.mp hreach.mem
        have hacc := (h.accepted_iff leaf n hn).mpr hr
        obtain ⟨popped', k', stack', hrun, hp', hleaves⟩ :=
          ih (hp.pop_root hk hlen hleaf hr) (by omega)
        refine ⟨popped', k', stack', ?_, hp', hleaves⟩
        rw [pushVotes, hlist]
        simp only [Option.bind_eq_bind, Option.bind_some, hn, hacc, if_true]
        exact hrun
      obtain ⟨n, b, hn, hacc, hb, hparent⟩ := h.exists_blk hreach.mem hr
      set k1 := (Kahn.mk k.kahnNodes (k.leaves.erase leaf)).setNode (T.parent leaf)
        { inDegree := (k.node (T.parent leaf)).inDegree - 1
          votes := (k.node (T.parent leaf)).votes.addCount leaf (k.node leaf).votes.len } with hk1
      set k2 := if (k.node (T.parent leaf)).inDegree - 1 = 0 then
        { k1 with leaves := insert (T.parent leaf) k1.leaves } else k1 with hk2
      have hnode : ∀ q, k2.node q = if q = T.parent leaf then
          { inDegree := (k.node (T.parent leaf)).inDegree - 1
            votes := (k.node (T.parent leaf)).votes.addCount leaf (k.node leaf).votes.len }
          else k.node q := by
        intro q
        have hsame : k2.node q = k1.node q := by
          rw [hk2]
          split <;> rfl
        rw [hsame, Kahn.node_setNode]
        rfl
      have hleaves : ∀ q, q ∈ k2.leaves ↔ (q ≠ leaf ∧ q ∈ k.leaves) ∨
          (q = T.parent leaf ∧ (k.node (T.parent leaf)).inDegree - 1 = 0) := by
        intro q
        rw [hk2]
        split
        · rw [mem_insert]
          show q = _ ∨ q ∈ k.leaves.erase leaf ↔ _
          rw [mem_erase]
          tauto
        show q ∈ k.leaves.erase leaf ↔ _
        rw [mem_erase]
        tauto
      obtain ⟨popped', k', stack', hrun, hp', hleaves'⟩ :=
        ih (hp.pop_child hk hlen hleaf hr hnode hleaves) (by omega)
      refine ⟨popped', k', stack', ?_, hp', hleaves'⟩
      rw [pushVotes, hlist]
      simp only [Option.bind_eq_bind, Option.bind_some, hn, hacc, hb, hparent, Bool.false_eq_true,
        if_false]
      exact hrun

/-! ## The stack of a poll -/

/-- The stack of a poll: a path down the tree of blocks that have a majority below them,
    each with all the votes below its children. -/
structure Branch (T : RootedTree ID) (alpha : Int) (votes : Bag) (stack : List Votes) : Prop where
  pairwise : (stack.map parentID).Pairwise T.Below
  chain : (stack.map parentID).IsChain fun a b => T.parent b = a
  support_ge : ∀ vote ∈ stack, alpha ≤ support T votes vote.parentID
  votes_eq : ∀ vote ∈ stack, ∀ P, vote.votes.countWhere P = childVotes T votes vote.parentID P

/-- Votes for a single block count no block twice. -/
theorem countedOnce_of_list_eq {v : ID} (h : votes.list = [v]) : CountedOnce T votes := by
  intro c _ hfirst hdeep
  rw [RootedTree.FirstDirect, h] at hfirst
  rw [RootedTree.Deep, h] at hdeep
  obtain ⟨x, hx, hparent⟩ := hfirst
  obtain ⟨y, hy, -, hne⟩ := hdeep
  obtain rfl := List.mem_singleton.mp hy
  obtain rfl := List.mem_singleton.mp (mem_of_find?_eq_some hx)
  exact hne hparent

/-- `calculateInDegree` and `pushVotes` end without a panic, with a branch. When nothing blocks
    the way to the head, it has every block with a majority below it; when a block is counted
    twice, it does not have the head. -/
theorem pushVotes_branch (h : Planted ts T) (hparams : ts.params.Valid)
    (hlen : (votes.len : Int) ≤ ts.params.k) (pops : RangeOrder ID) :
    ∃ k stack, ts.calculateInDegree votes = some k ∧
      ts.pushVotes pops ts.blocks.keys.card k [] = some stack ∧
      Branch T ts.params.alpha votes stack ∧
      (Unblocked T ts.params.alpha votes → ∀ q, ts.params.alpha ≤ support T votes q →
        q ∈ stack.map parentID) ∧
      (T.root ∈ stack.map parentID → CountedOnce T votes) := by
  have hpos := hparams.alpha_pos
  obtain ⟨k, hcount, hk⟩ := calculateInDegree_spec h votes
  obtain ⟨popped, k', stack, hrun, hp, hleaves⟩ := pushVotes_spec h hparams.k_lt_two_alpha hlen
    pops ts.blocks.keys.card (pushed_empty hk) (by rw [h.nodes_eq]; omega)
  refine ⟨k, stack, hcount, hrun, ⟨hp.pairwise, hp.chain, ?_, hp.stack_votes⟩, ?_, ?_⟩
  · intro vote hvote
    exact ((hp.mem_stack _).mp (mem_map_of_mem hvote)).2
  · intro hun q hq
    have honce : CountedOnce T votes := by
      have hle := support_le_root T votes q
      exact hun.resolve_right (by omega)
    refine (hp.mem_stack q).mpr ⟨hp.mem_popped hleaves honce ?_, hq⟩
    -- a majority is at least one vote
    by_contra hnot
    have hzero : support T votes q = votes.countWhere fun _ => false :=
      countWhere_congr fun v hv => decide_eq_false fun hb => hnot ⟨v, hv, hb⟩
    rw [hzero, countWhere_false] at hq
    omega
  · intro hroot
    exact hp.countedOnce_of_root ((hp.mem_stack _).mp hroot).1

/-- The votes of a poll are counted without a panic, and lead to a branch as in
    `pushVotes_branch`. -/
theorem voteStack_spec (h : Shape ts T) (hparams : ts.params.Valid)
    (hlen : (votes.len : Int) ≤ ts.params.k) (pops : RangeOrder ID) :
    ∃ stack, ts.voteStack pops votes = some stack ∧ Branch T ts.params.alpha votes stack ∧
      (Unblocked T ts.params.alpha votes → ∀ q, ts.params.alpha ≤ support T votes q →
        q ∈ stack.map parentID) ∧
      (T.root ∈ stack.map parentID → CountedOnce T votes) := by
  by_cases halpha : ts.params.alpha ≤ votes.len
  · obtain ⟨k, stack, hcount, hrun, hrest⟩ := pushVotes_branch h.planted hparams hlen pops
    refine ⟨stack, ?_, hrest⟩
    rw [voteStack, if_pos halpha, hcount]
    exact hrun
  refine ⟨[], by rw [voteStack, if_neg halpha], ⟨by simp, by simp, by simp, by simp⟩, ?_, by simp⟩
  intro _ q hq
  have : support T votes q ≤ votes.len := countWhere_le_len ..
  omega

/-- A stack with every block that has a majority below it starts at the head. -/
theorem Branch.first_eq_root {vote : Votes} (h : Branch T alpha votes (vote :: stack))
    (hcomplete : ∀ q, alpha ≤ support T votes q → q ∈ (vote :: stack).map parentID) :
    vote.parentID = T.root := by
  have hroot : T.root ∈ (vote :: stack).map parentID := by
    have hsupp := h.support_ge vote mem_cons_self
    have hle := support_le_root T votes vote.parentID
    exact hcomplete T.root (by omega)
  rcases mem_cons.mp hroot with heq | hmem
  · exact heq.symm
  -- nothing is above the head
  exact absurd rfl ((pairwise_cons.mp h.pairwise).1 _ hmem).mem.2

/-- The votes that the bag of a stack entry has for one ID: those for this child and for what is
    below it. -/
theorem Branch.count_eq (h : Branch T alpha votes stack) {vote : Votes} (hvote : vote ∈ stack)
    (c : ID) :
    vote.votes.count c = if T.IsChild vote.parentID c then
      votes.countWhere fun v => decide (c ∈ T.path v) else 0 := by
  rw [count_eq_countWhere, h.votes_eq vote hvote, childVotes]
  split
  · rename_i hchild
    refine countWhere_congr fun v _ => ?_
    rw [decide_eq_decide]
    constructor
    · rintro ⟨x, hx, -, heq⟩
      rw [decide_eq_true_eq] at heq
      exact heq ▸ hx
    · intro hc
      exact ⟨c, hc, hchild.2.2, decide_eq_true rfl⟩
  rename_i hnot
  rw [← votes.countWhere_false]
  refine countWhere_congr fun v _ => ?_
  rw [decide_eq_false_iff_not]
  rintro ⟨x, hx, hparent, heq⟩
  rw [decide_eq_true_eq] at heq
  subst heq
  have hm := mem_of_mem_path hx
  exact hnot ⟨hm.1, hm.2, hparent⟩

/-- **Transitive votes**: over any tree of blocks, for any bag and any order of pops, the votes
    are pushed without a panic. The stack has exactly the blocks with alpha votes below them, each
    once, from the root down to a child at a time, and the bag of each has the votes for each of
    its children and for what is below the child, exactly when no block is counted twice or the
    root has no majority below it. -/
theorem pushVotes_transitive (h : Planted ts T) (hparams : ts.params.verify = none) (votes : Bag)
    (hlen : (votes.len : Int) ≤ ts.params.k) (pops : RangeOrder ID) :
    ∃ k stack, ts.calculateInDegree votes = some k ∧
      ts.pushVotes pops ts.blocks.keys.card k [] = some stack ∧
      (((stack.map parentID).Nodup ∧
        (∀ q, q ∈ stack.map parentID ↔ ts.params.alpha ≤ support T votes q) ∧
        (∀ vote ∈ stack.head?, vote.parentID = T.root) ∧
        ((stack.map parentID).IsChain fun a b => T.IsChild a b) ∧
        ∀ vote ∈ stack, ∀ c, vote.votes.count c = if T.IsChild vote.parentID c then
          votes.countWhere fun v => decide (c ∈ T.path v) else 0) ↔
      CountedOnce T votes ∨ (support T votes T.root : Int) < ts.params.alpha) := by
  have hvalid := Parameters.valid_of_verify hparams
  obtain ⟨k, stack, hcount, hrun, hbranch, hall, hroot⟩ := pushVotes_branch h hvalid hlen pops
  refine ⟨k, stack, hcount, hrun, ?_, ?_⟩
  · -- a complete stack has the root on it if the root has a majority below it
    rintro ⟨-, hmem, -⟩
    by_cases hsupp : ts.params.alpha ≤ support T votes T.root
    · exact .inl (hroot ((hmem _).mpr hsupp))
    · exact .inr (by omega)
  intro hun
  have hall := hall hun
  refine ⟨?_, ?_, ?_, ?_, fun vote hvote => hbranch.count_eq hvote⟩
  · -- a block is not below itself
    refine hbranch.pairwise.imp ?_
    rintro a b hab rfl
    exact not_below_self hab
  · intro q
    refine ⟨?_, hall q⟩
    intro hq
    obtain ⟨vote, hvote, rfl⟩ := mem_map.mp hq
    exact hbranch.support_ge vote hvote
  · intro vote hvote
    cases stack with
    | nil => cases hvote
    | cons first rest =>
      cases hvote
      exact hbranch.first_eq_root hall
  refine hbranch.chain.imp_of_mem_tail_imp fun a b _ hb hparent => ?_
  -- what is not first lies below the first, so it is not the root
  have hpair := hbranch.pairwise
  cases hstack : stack.map parentID with
  | nil =>
    rw [hstack] at hb
    cases hb
  | cons first rest =>
    rw [hstack] at hb hpair
    have hm := ((pairwise_cons.mp hpair).1 b hb).mem
    exact ⟨hm.1, hm.2, hparent⟩

/-- Parameters for which one vote is no majority. -/
def twoVotes : Parameters := { Parameters.minimal with k := 2, alpha := 2, betaRogue := 2 }

/-- A chain of three blocks on the root. -/
def chainAdds : List Op := [.add ⟨⟨1⟩, ⟨9⟩, 1⟩, .add ⟨⟨2⟩, ⟨1⟩, 2⟩, .add ⟨⟨3⟩, ⟨2⟩, 3⟩]

/-- The tree of the chain. -/
def chainTree : RootedTree ID where
  nodes := {⟨9⟩, ⟨1⟩, ⟨2⟩, ⟨3⟩}
  root := ⟨9⟩
  parent id := if id = ⟨3⟩ then ⟨2⟩ else if id = ⟨2⟩ then ⟨1⟩ else ⟨9⟩
  root_mem := by decide
  parent_mem := by decide
  acyclic := ⟨fun id => if id = ⟨9⟩ then 0 else id.toBits.toNat, by decide⟩

/-- What the votes of a bag push onto the stack. -/
def pushedIDs (ts : Topological) (votes : Bag) : Option (List ID) :=
  (ts.calculateInDegree votes).bind fun k =>
    (ts.pushVotes .ids ts.blocks.keys.card k []).map (·.map Votes.parentID)

theorem observed_chainAdds :
    ((init twoVotes ⟨9⟩ 0 fun _ => .processing).toOption.bind (·.run chainAdds)).map
      (fun ts => (decide (Planted ts chainTree ∧ ts.params = twoVotes),
        ts.pushedIDs (Bag.empty.add [⟨2⟩, ⟨3⟩]))) = some (true, some [⟨1⟩]) := by
  decide +kernel

/-- One vote for each of the last two blocks. When the vote for the last one is visited first,
    the head and its child get both votes. -/
theorem pushVotes_transitive_chainAdds :
    ∃ ts₀ ts k stack, init twoVotes ⟨9⟩ 0 (fun _ => .processing) = .ok ts₀ ∧
      ts₀.run chainAdds = some ts ∧ Planted ts chainTree ∧
      CountedOnce chainTree (Bag.empty.add [⟨3⟩, ⟨2⟩]) ∧
      ts.calculateInDegree (Bag.empty.add [⟨3⟩, ⟨2⟩]) = some k ∧
      ts.pushVotes .ids ts.blocks.keys.card k [] = some stack ∧
      ⟨9⟩ ∈ stack.map parentID ∧ ⟨1⟩ ∈ stack.map parentID ∧ ⟨2⟩ ∉ stack.map parentID := by
  obtain ⟨ts₀, ts, hinit, hrun, hobs⟩ := exists_run_of_observed observed_chainAdds
  obtain ⟨hplanted, hparams⟩ := of_decide_eq_true (Prod.mk.inj hobs).1
  have honce : CountedOnce chainTree (Bag.empty.add [⟨3⟩, ⟨2⟩]) := by decide +kernel
  obtain ⟨k, stack, hk, hstack, hiff⟩ := pushVotes_transitive hplanted
    (by rw [hparams]; decide) (Bag.empty.add [⟨3⟩, ⟨2⟩]) (by rw [hparams]; decide) .ids
  obtain ⟨-, hmem, -⟩ := hiff.mpr (.inl honce)
  refine ⟨ts₀, ts, k, stack, hinit, hrun, hplanted, honce, hk, hstack, ?_, ?_, ?_⟩
  all_goals
    rw [hmem, hparams]
    decide +kernel

/-- When the other vote is visited first, the root has two votes below it and does not get
    them. -/
theorem exists_pushVotes_incomplete :
    ∃ ts₀ ts k stack, init twoVotes ⟨9⟩ 0 (fun _ => .processing) = .ok ts₀ ∧
      ts₀.run chainAdds = some ts ∧ Planted ts chainTree ∧ ts.params.verify = none ∧
      ((Bag.empty.add [⟨2⟩, ⟨3⟩]).len : Int) ≤ ts.params.k ∧
      ts.calculateInDegree (Bag.empty.add [⟨2⟩, ⟨3⟩]) = some k ∧
      ts.pushVotes .ids ts.blocks.keys.card k [] = some stack ∧
      ts.params.alpha ≤ support chainTree (Bag.empty.add [⟨2⟩, ⟨3⟩]) ⟨9⟩ ∧
      ⟨9⟩ ∉ stack.map parentID := by
  obtain ⟨ts₀, ts, hinit, hrun, hobs⟩ := exists_run_of_observed observed_chainAdds
  obtain ⟨hplanted, hpushed⟩ := Prod.mk.inj hobs
  obtain ⟨hplanted, hparams⟩ := of_decide_eq_true hplanted
  obtain ⟨k, hk, hstack⟩ := Option.bind_eq_some_iff.mp hpushed
  obtain ⟨stack, hstack, hids⟩ := Option.map_eq_some_iff.mp hstack
  refine ⟨ts₀, ts, k, stack, hinit, hrun, hplanted, ?_, ?_, hk, hstack, ?_, ?_⟩
  · rw [hparams]
    decide
  · rw [hparams]
    decide
  · rw [hparams]
    decide
  · rw [hids]
    decide

end Topological

end SavannahNode
