import SavannahNode.ForStd.Dag
import SavannahNode.ForStd.Except
import SavannahNode.Native.Avalanche
import SavannahNode.Spec.UniqueBagVotes

/-!
# The votes of an avalanche poll

`calculateInDegree` and `pushVotes` visit the processing vertices in a topological order and
push the votes from each vertex to its parents. What they compute does not depend on the
orders in which maps are visited: a voter supports the transactions in all ancestors of the
vertices it named, and its support counts for a transaction unless it also supports one that
conflicts with it.

## Key results

- `calculateInDegree_spec` — the in-degrees are those of the vertices reached
- `pushLeaves_spec` — every vertex reached is popped, with all the votes below it
- `collectVotes_spec` — the count of each transaction, and the transactions that meet the
  threshold
- `collectVotes_counts` — the vertices that a poll processes, and the counts it gives
-/

namespace SavannahNode.Avalanche.Topological

open Finset List Finmap UniqueBag

open Snowstorm (Tx)
open Dag

variable {ta : Topological}

/-- The parents of a vertex that are still to be decided. -/
def live (ta : Topological) (v : ID) : List ID := ta.undecided (ta.dag v).parents

/-- The transactions of a vertex, with its transaction vertex. -/
def contents (ta : Topological) (v : ID) : List Tx := (ta.dag v).txs ++ [ta.txv v]

/-- The processing vertices form a DAG that is closed under undecided parents, and IDs name
    contents. -/
structure Sorted (ta : Topological) : Prop where
  undecided : ∀ v ∈ ta.nodes, (ta.vts.status v).decided = false
  live_sub : ∀ v ∈ ta.nodes, ∀ p ∈ ta.live v, p ∈ ta.nodes
  acyclic : ∃ height : ID → Nat, ∀ v ∈ ta.nodes, ∀ p ∈ ta.live v, height p < height v
  unique : ∀ v ∈ ta.nodes, ∀ w ∈ ta.nodes, ∀ tx ∈ ta.contents v, ∀ tx' ∈ ta.contents w,
    tx.id = tx'.id → tx = tx'

variable {v d t : ID} {k : Kahn} {fuel : Nat} {responses : UniqueBag} {i : Fin 64}
  {order : RangeOrder ID} {p : Pushed} {cg : Snowstorm.Directed} {bits : BitSet} {txs : List Tx}

/-- A processing vertex is listed as often among the live parents as among the parents. -/
theorem Sorted.count_live (h : ta.Sorted) (hv : v ∈ ta.nodes) (u : ID) :
    (ta.live u).count v = (ta.dag u).parents.count v := by
  rw [live, Topological.undecided, count_filter]
  simp [h.undecided v hv]

/-! ## In-degrees -/

theorem node_insert (k : Kahn) (leaves : Finset ID) (id x : ID) (n : KahnNode) :
    Kahn.node { kahnNodes := k.kahnNodes.insert id n, leaves } x = if x = id then n else k.node x := by
  rw [Kahn.node, lookup_insert_ite]
  split <;> rfl

theorem node_of_notMem (h : v ∉ k.kahnNodes.keys) : k.node v = .zero := by
  rw [Kahn.node, lookup_eq_none.mpr h]
  rfl

/-- The sort as `markAncestorInDegrees` leaves it, while links to the vertices on `stack`
    are still to be counted. `votes` are the votes that the nodes hold. -/
structure Marked (ta : Topological) (votes : ID → Finset (Fin 64)) (stack : List ID) (k : Kahn) :
    Prop where
  keys_sub : k.kahnNodes.keys ⊆ ta.nodes
  stack_sub : ∀ v ∈ stack, v ∈ ta.nodes
  inDegree_eq : ∀ v, (k.node v).inDegree + stack.count v = inDegree ta.live k.kahnNodes.keys v
  inDegree_nonneg : ∀ v, 0 ≤ (k.node v).inDegree
  mem_leaves : ∀ v, v ∈ k.leaves ↔ v ∈ k.kahnNodes.keys ∧ (k.node v).inDegree = 0
  votes_eq : ∀ v, (k.node v).votes.members = votes v

/-- The number of links that `markAncestorInDegrees` may still follow. -/
def linksLeft (ta : Topological) (stack : List ID) (k : Kahn) : Nat :=
  stack.length + ∑ v ∈ ta.nodes \ k.kahnNodes.keys, (ta.live v).length

variable {votes : ID → Finset (Fin 64)} {stack : List ID} {k : Kahn} {c : ID}

/-- A node changes: `m` links to it are counted, and for a vertex seen for the first time, those
    to its parents are next. -/
private theorem Marked.visit (hs : ta.Sorted) {m : Nat} {n : KahnNode} {k' : Kahn}
    (h : ta.Marked votes (replicate m c ++ stack) k) (hc : c ∈ ta.nodes)
    (hk : k'.kahnNodes = k.kahnNodes.insert c n) (hn : n.inDegree = (k.node c).inDegree + m)
    (hleaves : ∀ v, v ∈ k'.leaves ↔ if v = c then n.inDegree = 0 else v ∈ k.leaves) :
    ta.Marked (fun v => if v = c then n.votes.members else votes v)
      (if c ∈ k.kahnNodes.keys then stack else (ta.live c).reverse ++ stack) k' := by
  have hstack : ∀ v ∈ stack, v ∈ ta.nodes := fun v hv => h.stack_sub v (mem_append_right _ hv)
  have hkeys : k'.kahnNodes.keys = insert c k.kahnNodes.keys := by rw [hk, keys_insert]
  have hnode : ∀ v, k'.node v = if v = c then n else k.node v := by
    intro v
    rw [Kahn.node, hk]
    exact node_insert k ∅ c v n
  refine ⟨?_, fun v hv => ?_, fun v => ?_, fun v => ?_, fun v => ?_, fun v => ?_⟩
  · rw [hkeys]
    exact insert_subset hc h.keys_sub
  · split at hv
    · exact hstack v hv
    rcases mem_append.mp hv with hv | hv
    · exact hs.live_sub c hc v (mem_reverse.mp hv)
    · exact hstack v hv
  · have hdeg : (k'.node v).inDegree + stack.count v = inDegree ta.live k.kahnNodes.keys v := by
      rw [← h.inDegree_eq v, count_append, count_replicate, hnode]
      by_cases hv : v = c
      · subst hv
        rw [if_pos rfl, if_pos (beq_self_eq_true v)]
        omega
      · rw [if_neg hv, if_neg (by simpa using Ne.symm hv), Nat.zero_add]
    rw [hkeys]
    by_cases hmem : c ∈ k.kahnNodes.keys
    · rw [if_pos hmem, insert_eq_of_mem hmem]
      exact hdeg
    rw [if_neg hmem, inDegree_insert hmem, count_append, count_reverse]
    omega
  · rw [hnode]
    split
    · have := h.inDegree_nonneg c
      omega
    · exact h.inDegree_nonneg v
  · rw [hleaves, hkeys, hnode, Finset.mem_insert]
    split
    next hv => exact (and_iff_right (.inl hv)).symm
    next hv => rw [or_iff_right hv, h.mem_leaves]
  · rw [hnode]
    split
    · rfl
    · exact h.votes_eq v

/-- One link counted. -/
private theorem Marked.count (hs : ta.Sorted) (h : ta.Marked votes (c :: stack) k) :
    ta.Marked votes (if c ∈ k.kahnNodes.keys then stack else (ta.live c).reverse ++ stack)
      { kahnNodes := k.kahnNodes.insert c
          { k.node c with inDegree := (k.node c).inDegree + 1 }
        leaves := if (k.node c).inDegree + 1 = 1 then k.leaves.erase c else k.leaves } := by
  have hpos := h.inDegree_nonneg c
  have hvotes : (fun v => if v = c then (k.node c).votes.members else votes v) = votes := by
    funext v
    split
    next hv => rw [hv, h.votes_eq]
    next => rfl
  rw [← hvotes]
  refine Marked.visit hs (m := 1) (n := { k.node c with inDegree := (k.node c).inDegree + 1 }) h
    (h.stack_sub c mem_cons_self) rfl rfl fun v => ?_
  have hleaf := h.mem_leaves v
  by_cases hv : v = c
  · subst hv
    split <;> simp [hleaf] <;> omega
  · split <;> simp [hv]

private theorem linksLeft_visit (hc : c ∈ ta.nodes) (stack : List ID) (leaves : Finset ID)
    (n : KahnNode) :
    ta.linksLeft (if c ∈ k.kahnNodes.keys then stack else (ta.live c).reverse ++ stack)
      { kahnNodes := k.kahnNodes.insert c n, leaves } = ta.linksLeft stack k := by
  simp only [linksLeft, keys_insert]
  split
  next hmem => rw [insert_eq_of_mem hmem]
  next hmem =>
    have hsum := add_sum_erase _ (fun v => (ta.live v).length) (mem_sdiff.mpr ⟨hc, hmem⟩)
    rw [← sdiff_insert] at hsum
    rw [length_append, length_reverse]
    omega

/-- Only vertices of the stack and their ancestors are marked. -/
theorem markAncestorInDegrees_spec {P : ID → Prop} (hs : ta.Sorted)
    (hP : ∀ v, P v → ∀ p ∈ ta.live v, P p) (h : ta.Marked votes stack k)
    (hfuel : ta.linksLeft stack k ≤ fuel) (hstack : ∀ v ∈ stack, P v)
    (hkeys : ∀ v ∈ k.kahnNodes.keys, P v) :
    ∃ k', ta.markAncestorInDegrees fuel stack k = .ok k' ∧ ta.Marked votes [] k' ∧
      k.kahnNodes.keys ⊆ k'.kahnNodes.keys ∧ ∀ v ∈ k'.kahnNodes.keys, P v := by
  induction fuel generalizing stack k with
  | zero =>
    cases stack with
    | nil => exact ⟨k, rfl, h, Finset.Subset.refl _, hkeys⟩
    | cons c stack =>
      rw [linksLeft, length_cons] at hfuel
      omega
  | succ fuel ih =>
    cases stack with
    | nil => exact ⟨k, rfl, h, Finset.Subset.refl _, hkeys⟩
    | cons c stack =>
      rw [List.forall_mem_cons] at hstack
      have hleft : ta.linksLeft (c :: stack) k = ta.linksLeft stack k + 1 := Nat.add_right_comm ..
      have hc := h.stack_sub c mem_cons_self
      obtain ⟨k', hk', hmarked, hsub, hall⟩ := ih (h.count hs)
        ((linksLeft_visit hc stack _ _).trans_le (by omega)) (by
        intro v hv
        split at hv
        · exact hstack.2 v hv
        -- the live parents of the vertex were pushed
        · rcases mem_append.mp hv with hv | hv
          · exact hP c hstack.1 v (mem_reverse.mp hv)
          · exact hstack.2 v hv) (by
        rw [keys_insert, forall_mem_insert]
        exact ⟨hstack.1, hkeys⟩)
      refine ⟨k', ?_, hmarked, ?_, hall⟩
      · rw [markAncestorInDegrees]
        cases hlook : k.kahnNodes.lookup c with
        | some n =>
          have hmem : c ∈ k.kahnNodes.keys := (mem_keys_iff _ _).mpr ⟨n, hlook⟩
          rw [if_pos hmem] at hk'
          exact hk'
        | none =>
          have hmem : c ∉ k.kahnNodes.keys := lookup_eq_none.mp hlook
          rw [if_neg hmem] at hk'
          exact hk'
      · rw [keys_insert] at hsub
        exact (Finset.subset_insert _ _).trans hsub

/-! ## Counting the responses -/

theorem linksLeft_le_numLinks (ta : Topological) (k : Kahn) : ta.linksLeft [] k ≤ ta.numLinks := by
  rw [linksLeft, length_nil, Nat.zero_add]
  refine (sum_le_sum_of_subset sdiff_subset).trans ?_
  exact sum_le_sum fun v _ => length_filter_le _ _

/-- The votes with those for one more vertex, if it is processing. -/
def withVote (ta : Topological) (responses : UniqueBag) (votes : ID → Finset (Fin 64)) (vote : ID)
    (v : ID) : Finset (Fin 64) :=
  if v = vote ∧ v ∈ ta.nodes then votes v ∪ responses.voters v else votes v

/-- The node of a vertex is given the votes for it. Seen for the first time, it is a leaf for
    now, and the links to its parents have to be counted. -/
private theorem Marked.vote (hs : ta.Sorted) (responses : UniqueBag) (h : ta.Marked votes [] k)
    {vote : ID} (hvote : vote ∈ ta.nodes) :
    ta.Marked (ta.withVote responses votes vote)
      (if vote ∈ k.kahnNodes.keys then [] else (ta.live vote).reverse)
      { kahnNodes := k.kahnNodes.insert vote
          { k.node vote with votes := (k.node vote).votes.union (responses.getSet vote) }
        leaves := if vote ∈ k.kahnNodes.keys then k.leaves else insert vote k.leaves } := by
  generalize hn : { k.node vote with votes := (k.node vote).votes.union (responses.getSet vote) } = n
  have hdeg : n.inDegree = (k.node vote).inDegree := by rw [← hn]
  have hvotes : (fun v => if v = vote then n.votes.members else votes v) =
      ta.withVote responses votes vote := by
    funext v
    rw [← hn, withVote, BitSet.members_union, h.votes_eq]
    by_cases hv : v = vote
    · subst hv
      rw [if_pos rfl, if_pos ⟨rfl, hvote⟩]
      rfl
    · rw [if_neg hv, if_neg fun h => hv h.1]
  rw [← hvotes, ← append_nil (ta.live vote).reverse]
  refine Marked.visit hs (m := 0) h hvote rfl (hdeg.trans (Int.add_zero _).symm) fun v => ?_
  rw [hdeg]
  have hleaf := h.mem_leaves v
  by_cases hmem : vote ∈ k.kahnNodes.keys
  · rw [if_pos hmem, hleaf]
    split
    next hv => rw [hv, and_iff_right hmem]
    next => rfl
  rw [if_neg hmem, Finset.mem_insert]
  split
  next hv => exact iff_of_true (.inl hv) (by rw [node_of_notMem hmem]; rfl)
  next hv => rw [or_iff_right hv]

/-- A vote for a processing vertex becomes one of its node's. -/
theorem countVote_spec {P : ID → Prop} (hs : ta.Sorted) (hP : ∀ v, P v → ∀ p ∈ ta.live v, P p)
    (responses : UniqueBag) (h : ta.Marked votes [] k) {vote : ID} (hPvote : vote ∈ ta.nodes → P vote)
    (hkeys : ∀ v ∈ k.kahnNodes.keys, P v) :
    ∃ k', ta.countVote responses k vote = .ok k' ∧
      ta.Marked (ta.withVote responses votes vote) [] k' ∧
      k.kahnNodes.keys ⊆ k'.kahnNodes.keys ∧ (vote ∈ ta.nodes → vote ∈ k'.kahnNodes.keys) ∧
      ∀ v ∈ k'.kahnNodes.keys, P v := by
  rw [countVote]
  by_cases hvote : vote ∈ ta.nodes
  swap
  · rw [if_pos hvote]
    refine ⟨k, rfl, ?_, Finset.Subset.refl _, fun h => absurd h hvote, hkeys⟩
    have hsame : ta.withVote responses votes vote = votes := by
      funext v
      refine if_neg ?_
      rintro ⟨rfl, hv⟩
      exact hvote hv
    rw [hsame]
    exact h
  rw [if_neg (not_not_intro hvote)]
  have hmarked := h.vote hs responses hvote
  have hinsert : ∀ v ∈ insert vote k.kahnNodes.keys, P v :=
    forall_mem_insert .. |>.mpr ⟨hPvote hvote, hkeys⟩
  cases hlook : k.kahnNodes.lookup vote with
  | some n =>
    have hmem : vote ∈ k.kahnNodes.keys := (mem_keys_iff _ _).mpr ⟨n, hlook⟩
    rw [if_pos hmem, if_pos hmem] at hmarked
    refine ⟨_, rfl, hmarked, ?_⟩
    rw [keys_insert]
    exact ⟨subset_insert _ _, fun _ => mem_insert_self _ _, hinsert⟩
  | none =>
    have hmem : vote ∉ k.kahnNodes.keys := lookup_eq_none.mp hlook
    rw [if_neg hmem, if_neg hmem] at hmarked
    have hleft := (linksLeft_visit hvote [] (insert vote k.leaves)
      { k.node vote with votes := (k.node vote).votes.union (responses.getSet vote) }).trans_le
      (ta.linksLeft_le_numLinks k)
    rw [if_neg hmem, append_nil] at hleft
    obtain ⟨k', hk', hmarked', hsub, hall⟩ := markAncestorInDegrees_spec hs hP hmarked hleft
      (fun v hv => hP vote (hPvote hvote) v (mem_reverse.mp hv))
      (keys_insert k.kahnNodes vote _ ▸ hinsert)
    rw [keys_insert] at hsub
    exact ⟨k', hk', hmarked', (Finset.subset_insert _ _).trans hsub,
      fun _ => hsub (mem_insert_self _ _), hall⟩

/-- The votes for processing vertices. -/
def processingVoters (ta : Topological) (responses : UniqueBag) (v : ID) : Finset (Fin 64) :=
  if v ∈ ta.nodes then responses.voters v else ∅

/-- `v` is a processing vertex that a poll reaches: a vertex voted for, or an ancestor. -/
def Reached (ta : Topological) (responses : UniqueBag) (v : ID) : Prop :=
  ∃ w ∈ ta.nodes, w ∈ responses.keys ∧ Ancestor ta.live w v

theorem mem_keys_of_mem_processingVoters (hi : i ∈ ta.processingVoters responses v) :
    v ∈ ta.nodes ∧ v ∈ responses.keys := by
  rw [processingVoters] at hi
  split at hi
  · rename_i hv
    exact ⟨hv, mem_keys_of_mem_voters hi⟩
  · cases notMem_empty i hi

theorem Reached.live (h : ta.Reached responses v) {p : ID} (hp : p ∈ ta.live v) :
    ta.Reached responses p := by
  obtain ⟨w, hw, hkey, ha⟩ := h
  exact ⟨w, hw, hkey, ha.tail hp⟩

private theorem foldlM_countVote (hs : ta.Sorted) (l : List ID) (hl : ∀ v ∈ l, v ∈ responses.keys)
    (done : List ID)
    (h : ta.Marked (fun v => if v ∈ done then ta.processingVoters responses v else ∅) [] k)
    (hdone : ∀ v ∈ done, v ∈ ta.nodes → v ∈ k.kahnNodes.keys)
    (hreached : ∀ v ∈ k.kahnNodes.keys, ta.Reached responses v) :
    ∃ k', l.foldlM (ta.countVote responses) k = .ok k' ∧
      ta.Marked (fun v => if v ∈ done ++ l then ta.processingVoters responses v else ∅) [] k' ∧
      (∀ v ∈ done ++ l, v ∈ ta.nodes → v ∈ k'.kahnNodes.keys) ∧
      ∀ v ∈ k'.kahnNodes.keys, ta.Reached responses v := by
  induction l generalizing k done with
  | nil => exact ⟨k, rfl, by simpa using h, by simpa using hdone, hreached⟩
  | cons vote l ih =>
    rw [List.forall_mem_cons] at hl
    obtain ⟨k1, hk1, h1, hsub, hvote, hreached1⟩ := countVote_spec hs
      (fun v hv p => Reached.live hv) responses h (fun hn => ⟨vote, hn, hl.1, .refl vote⟩) hreached
    have hvotes : ta.withVote responses
        (fun v => if v ∈ done then ta.processingVoters responses v else ∅) vote =
        fun v => if v ∈ done ++ [vote] then ta.processingVoters responses v else ∅ := by
      funext v
      rw [withVote, processingVoters]
      by_cases hv : v = vote <;> by_cases hn : v ∈ ta.nodes <;> by_cases hd : v ∈ done <;>
        simp [hv, hn, hd] <;> simp_all
    rw [hvotes] at h1
    obtain ⟨k', hk', h', hall, hreached'⟩ := ih hl.2 (done ++ [vote]) h1 (by
      intro v hv hn
      rcases mem_append.mp hv with hv | hv
      · exact hsub (hdone v hv hn)
      rw [List.mem_singleton] at hv
      subst hv
      exact hvote hn) hreached1
    rw [append_assoc] at h' hall
    exact ⟨k', by rw [foldlM_cons, hk1]; exact hk', h', hall, hreached'⟩

/-- The sort is set up with the in-degrees of the vertices reached, among them those voted
    for. -/
theorem calculateInDegree_spec (hs : ta.Sorted) (order : RangeOrder ID) (responses : UniqueBag) :
    ∃ k, ta.calculateInDegree order responses = .ok k ∧
      ta.Marked (ta.processingVoters responses) [] k ∧
      (∀ v ∈ ta.nodes, v ∈ responses.keys → v ∈ k.kahnNodes.keys) ∧
      ∀ v ∈ k.kahnNodes.keys, ta.Reached responses v := by
  have hempty : ta.Marked (fun v => if v ∈ ([] : List ID) then ta.processingVoters responses v
      else ∅) [] { kahnNodes := ∅, leaves := ∅ } := by
    refine ⟨by simp, by simp, ?_, ?_, ?_, ?_⟩
    · intro v
      rfl
    · intro v
      exact le_refl _
    · simp
    intro v
    show BitSet.members 0#64 = _
    simp
  obtain ⟨k, hk, h, hall, hreached⟩ := foldlM_countVote hs (responses.list order)
    (fun v hv => (order.mem_list _ _).mp hv) [] hempty (by simp) (by simp)
  rw [nil_append] at h hall
  have hvotes : (fun v => if v ∈ responses.list order then ta.processingVoters responses v
      else ∅) = ta.processingVoters responses := by
    funext v
    split
    · rfl
    rename_i hv
    symm
    rw [eq_empty_iff_forall_notMem]
    intro i hi
    exact hv ((order.mem_list _ _).mpr (mem_keys_of_mem_processingVoters hi).2)
  rw [hvotes] at h
  exact ⟨k, hk, h, fun v hn hv => hall v ((order.mem_list _ _).mpr hv) hn, hreached⟩

/-! ## Pushing the votes to the parents -/

/-- What pushing votes to parents makes of the sort: each listing of a vertex among the parents
    removes one link to it and gives it the votes. -/
structure PushedTo (bits : BitSet) (parents : List ID) (k k' : Kahn) : Prop where
  keys_eq : k'.kahnNodes.keys = k.kahnNodes.keys
  inDegree_eq : ∀ v ∈ k.kahnNodes.keys, (k'.node v).inDegree = (k.node v).inDegree - parents.count v
  mem_votes : ∀ v ∈ k.kahnNodes.keys, ∀ i, i ∈ (k'.node v).votes.members ↔
    i ∈ (k.node v).votes.members ∨ v ∈ parents ∧ i ∈ bits.members
  mem_leaves : ∀ v, v ∈ k'.leaves ↔ v ∈ k.leaves ∨
    v ∈ k.kahnNodes.keys ∧ v ∈ parents ∧ (k.node v).inDegree = parents.count v

/-- One parent that was not pruned. -/
theorem pushToParent_of_mem (bits : BitSet) (hd : d ∈ k.kahnNodes.keys) :
    (pushToParent bits k d).kahnNodes.keys = k.kahnNodes.keys ∧
      (∀ v, (pushToParent bits k d).node v = if v = d then
        { inDegree := (k.node d).inDegree - 1, votes := (k.node d).votes.union bits }
        else k.node v) ∧
      (pushToParent bits k d).leaves =
        if (k.node d).inDegree - 1 = 0 then insert d k.leaves else k.leaves := by
  obtain ⟨n, hlook⟩ := (mem_keys_iff _ _).mp hd
  have hn : k.node d = n := by
    rw [Kahn.node, hlook]
    rfl
  subst hn
  rw [pushToParent, hlook]
  refine ⟨?_, fun v => node_insert k _ d v _, rfl⟩
  rw [keys_insert, insert_eq_of_mem hd]

theorem pushToParent_of_notMem (bits : BitSet) (hd : d ∉ k.kahnNodes.keys) :
    pushToParent bits k d = k := by
  rw [pushToParent, lookup_eq_none.mpr hd]

/-- Elsewhere, one more parent makes no difference. -/
private theorem count_snoc_of_ne {parents : List ID} (hv : v ≠ d) :
    (parents ++ [d]).count v = parents.count v ∧ (v ∈ parents ++ [d] ↔ v ∈ parents) := by
  simp [count_append, hv, Ne.symm hv]

theorem foldl_pushToParent_spec (bits : BitSet) (parents : List ID) (k : Kahn)
    (hcount : ∀ v ∈ k.kahnNodes.keys, (parents.count v : Int) ≤ (k.node v).inDegree) :
    PushedTo bits parents k (parents.foldl (pushToParent bits) k) := by
  induction parents using reverseRecOn with
  | nil => exact ⟨rfl, by simp, by simp, by simp⟩
  | append_singleton parents d ih =>
    have h := ih fun v hv => by
      have := hcount v hv
      rw [count_append] at this
      omega
    rw [foldl_append, foldl_cons, foldl_nil]
    by_cases hd : d ∈ k.kahnNodes.keys
    · obtain ⟨hkeys, hnode, hleaves⟩ := pushToParent_of_mem bits (h.keys_eq ▸ hd)
      have hdcount := hcount d hd
      have hself : (parents ++ [d]).count d = parents.count d + 1 := by simp
      have hdeg := h.inDegree_eq d hd
      refine ⟨hkeys.trans h.keys_eq, fun v hv => ?_, fun v hv i => ?_, fun v => ?_⟩
      · rw [hnode]
        by_cases hvd : v = d
        · subst hvd
          rw [if_pos rfl, hself]
          show _ - 1 = _
          omega
        rw [if_neg hvd, (count_snoc_of_ne hvd).1]
        exact h.inDegree_eq v hv
      · rw [hnode]
        by_cases hvd : v = d
        · subst hvd
          rw [if_pos rfl, BitSet.members_union, Finset.mem_union, h.mem_votes v hv, mem_append,
            List.mem_singleton]
          tauto
        rw [if_neg hvd, (count_snoc_of_ne hvd).2]
        exact h.mem_votes v hv i
      by_cases hvd : v = d
      · subst hvd
        -- it was no leaf because of the parents so far
        have hleaf := h.mem_leaves v
        have hlast : (k.node v).inDegree ≠ parents.count v := by omega
        rw [hleaves, hself]
        split <;> simp [hleaf, hlast, hd] <;> omega
      rw [hleaves, (count_snoc_of_ne hvd).1, (count_snoc_of_ne hvd).2, ← h.mem_leaves v]
      split
      · exact mem_insert.trans (or_iff_right hvd)
      · exact Iff.rfl
    · -- a pruned parent
      rw [pushToParent_of_notMem bits (h.keys_eq ▸ hd)]
      have hne : ∀ v ∈ k.kahnNodes.keys, v ≠ d := by
        rintro v hv rfl
        exact hd hv
      refine ⟨h.keys_eq, fun v hv => ?_, fun v hv => ?_, fun v => ?_⟩
      · rw [(count_snoc_of_ne (hne v hv)).1]
        exact h.inDegree_eq v hv
      · rw [(count_snoc_of_ne (hne v hv)).2]
        exact h.mem_votes v hv
      · refine (h.mem_leaves v).trans (or_congr_right (and_congr_right fun hv => ?_))
        rw [(count_snoc_of_ne (hne v hv)).1, (count_snoc_of_ne (hne v hv)).2]

/-! ## Giving the votes to the transactions -/

theorem mem_voters_give : i ∈ (txs.foldl (fun p tx => p.give cg bits tx) p).votes.voters t ↔
      i ∈ p.votes.voters t ∨ (∃ tx ∈ txs, tx.id = t) ∧ i ∈ bits.members := by
  induction txs generalizing p with
  | nil => simp
  | cons tx txs ih =>
    rw [foldl_cons, ih]
    show i ∈ (p.votes.unionSet tx.id bits).voters t ∨ _ ↔ _
    rw [mem_voters_unionSet, exists_mem_cons_iff]
    tauto

/-- The conflicts of a transaction are those at the first time it is given votes. -/
theorem lookup_txConflicts_give :
    (txs.foldl (fun p tx => p.give cg bits tx) p).txConflicts.lookup t =
      (p.txConflicts.lookup t).or ((txs.find? fun tx => tx.id = t).map cg.conflicts) := by
  induction txs generalizing p with
  | nil => simp
  | cons tx txs ih =>
    rw [foldl_cons, ih, Pushed.give]
    by_cases ht : tx.id = t
    · subst ht
      cases hlook : p.txConflicts.lookup tx.id with
      | none => simp
      | some set => simp [hlook]
    cases p.txConflicts.lookup tx.id with
    | none => simp [ht, lookup_insert_of_ne _ (Ne.symm ht)]
    | some set => simp [ht]

/-! ## The loop over the leaves -/

/-- A voter named a vertex below `v`, or `v` itself. -/
def Backs (ta : Topological) (votes : ID → Finset (Fin 64)) (v : ID) (i : Fin 64) : Prop :=
  ∃ w, Ancestor ta.live w v ∧ i ∈ votes w

theorem backs_iff : ta.Backs votes v i ↔ i ∈ votes v ∨ ∃ u, v ∈ ta.live u ∧ ta.Backs votes u i := by
  constructor
  · rintro ⟨w, hw, hi⟩
    rcases (Relation.ReflTransGen.cases_tail_iff _ _ _).mp hw with rfl | ⟨u, hu, hv⟩
    · exact .inl hi
    · exact .inr ⟨u, hv, w, hu, hi⟩
  rintro (hi | ⟨u, hv, w, hw, hi⟩)
  · exact ⟨v, .refl v, hi⟩
  · exact ⟨w, hw.tail hv, hi⟩

/-- The vertex holds a transaction with this ID. -/
def Holds (ta : Topological) (v t : ID) : Prop := ∃ tx ∈ ta.contents v, tx.id = t

/-- The sort after the vertices of `popped` were popped, out of the vertices `seen`. -/
structure Pushing (ta : Topological) (votes : ID → Finset (Fin 64)) (seen popped : Finset ID)
    (k : Kahn) (p : Pushed) : Prop where
  keys_eq : k.kahnNodes.keys = seen
  popped_sub : popped ⊆ seen
  inDegree_eq : ∀ v ∈ seen, (k.node v).inDegree = inDegree ta.live (seen \ popped) v
  mem_leaves : ∀ v, v ∈ k.leaves ↔ v ∈ seen \ popped ∧ inDegree ta.live (seen \ popped) v = 0
  inDegree_popped : ∀ v ∈ popped, inDegree ta.live (seen \ popped) v = 0
  mem_votes : ∀ v ∈ seen, ∀ i, i ∈ (k.node v).votes.members ↔
    i ∈ votes v ∨ ∃ u ∈ popped, v ∈ ta.live u ∧ ta.Backs votes u i
  mem_voters : ∀ t i, i ∈ p.votes.voters t ↔ ∃ u ∈ popped, ta.Holds u t ∧ ta.Backs votes u i
  lookup_txConflicts : ∀ t set, p.txConflicts.lookup t = some set →
    ∃ u ∈ popped, ∃ tx ∈ ta.contents u, tx.id = t ∧ set = ta.cg.conflicts tx
  mem_txConflicts : ∀ t, (∃ u ∈ popped, ta.Holds u t) → t ∈ p.txConflicts.keys

/-- What is seen: a set of processing vertices that contains those voted for, and the live
    parents of its vertices. -/
structure Closed (ta : Topological) (votes : ID → Finset (Fin 64)) (seen : Finset ID) : Prop where
  sub_nodes : seen ⊆ ta.nodes
  live_mem : ∀ u ∈ seen, ∀ p ∈ ta.live u, p ∈ seen
  voted_mem : ∀ v i, i ∈ votes v → v ∈ seen

theorem Closed.mem_of_backs {seen : Finset ID} (h : ta.Closed votes seen) (hv : ta.Backs votes v i) :
    v ∈ seen := by
  obtain ⟨w, hw, hi⟩ := hv
  exact hw.mem_of_closed h.live_mem (h.voted_mem w i hi)

variable {seen popped : Finset ID} {p : Pushed}

/-- A leaf has all the votes below it. -/
theorem Pushing.votes_leaf (hc : ta.Closed votes seen) (h : ta.Pushing votes seen popped k p)
    {leaf : ID} (hleaf : leaf ∈ k.leaves) (i : Fin 64) :
    i ∈ (k.node leaf).votes.members ↔ ta.Backs votes leaf i := by
  obtain ⟨hmem, hdeg⟩ := (h.mem_leaves leaf).mp hleaf
  rw [inDegree_eq_zero_iff] at hdeg
  rw [h.mem_votes leaf (mem_sdiff.mp hmem).1, backs_iff]
  refine or_congr_right ⟨?_, ?_⟩
  · rintro ⟨u, -, hu⟩
    exact ⟨u, hu⟩
  rintro ⟨u, hu, hb⟩
  -- a child with votes was seen, and all children seen were popped
  by_contra hnot
  have hu' : u ∉ popped := fun hp => hnot ⟨u, hp, hu, hb⟩
  exact hdeg u (mem_sdiff.mpr ⟨hc.mem_of_backs hb, hu'⟩) hu

/-- One leaf popped. -/
theorem Pushing.pop (hs : ta.Sorted) (hc : ta.Closed votes seen)
    (h : ta.Pushing votes seen popped k p) {leaf : ID} (hleaf : leaf ∈ k.leaves) :
    ta.Pushing votes seen (insert leaf popped)
      ((ta.dag leaf).parents.foldl (pushToParent (k.node leaf).votes)
        { k with leaves := k.leaves.erase leaf })
      ((ta.contents leaf).foldl (fun p tx => p.give ta.cg (k.node leaf).votes tx) p) := by
  obtain ⟨hmem, hdeg⟩ := (h.mem_leaves leaf).mp hleaf
  obtain ⟨hseen, hpopped⟩ := mem_sdiff.mp hmem
  have hsdiff : seen \ insert leaf popped = (seen \ popped).erase leaf := sdiff_insert _ _ _
  have hsplit : ∀ v ∈ seen, (ta.dag leaf).parents.count v +
      inDegree ta.live (seen \ insert leaf popped) v = inDegree ta.live (seen \ popped) v := by
    intro v hv
    rw [hsdiff, ← hs.count_live (hc.sub_nodes hv) leaf]
    exact add_sum_erase _ (fun u => (ta.live u).count v) hmem
  have hpush := foldl_pushToParent_spec (k.node leaf).votes (ta.dag leaf).parents
    { k with leaves := k.leaves.erase leaf } (by
      intro v hv
      rw [h.keys_eq] at hv
      have := hsplit v hv
      show _ ≤ (k.node v).inDegree
      rw [h.inDegree_eq v hv]
      omega)
  have hlive : ∀ v ∈ seen, v ∈ (ta.dag leaf).parents ↔ v ∈ ta.live leaf := by
    intro v hv
    rw [← count_pos_iff, ← count_pos_iff, hs.count_live (hc.sub_nodes hv)]
  have hvotes := h.votes_leaf hc hleaf
  refine ⟨hpush.keys_eq.trans h.keys_eq, insert_subset hseen h.popped_sub, ?_, ?_, ?_, ?_,
    ?_, ?_, ?_⟩
  · intro v hv
    rw [hpush.inDegree_eq v (by rw [h.keys_eq]; exact hv)]
    have h1 := h.inDegree_eq v hv
    have h2 := hsplit v hv
    show (k.node v).inDegree - _ = _
    omega
  · intro v
    rw [hpush.mem_leaves v]
    show v ∈ k.leaves.erase leaf ∨ v ∈ k.kahnNodes.keys ∧ _ ∧ (k.node v).inDegree = _ ↔ _
    rw [hsdiff, Finset.mem_erase, Finset.mem_erase, h.mem_leaves, h.keys_eq]
    constructor
    · rintro (⟨hne, hv, hz⟩ | ⟨hv, hp, he⟩)
      · have h2 := hsplit v (mem_sdiff.mp hv).1
        rw [hsdiff] at h2
        exact ⟨⟨hne, hv⟩, by omega⟩
      · have h1 := h.inDegree_eq v hv
        have h2 := hsplit v hv
        rw [hsdiff] at h2
        have hpos := count_pos_iff.mpr hp
        refine ⟨⟨?_, ?_⟩, by omega⟩
        · rintro rfl
          omega
        -- a vertex that was popped has no links left to it
        refine mem_sdiff.mpr ⟨hv, fun hpop => ?_⟩
        have := h.inDegree_popped v hpop
        omega
    · rintro ⟨⟨hne, hv⟩, hz⟩
      have hv' := (mem_sdiff.mp hv).1
      have h1 := h.inDegree_eq v hv'
      have h2 := hsplit v hv'
      rw [hsdiff] at h2
      by_cases hp : v ∈ (ta.dag leaf).parents
      · exact .inr ⟨hv', hp, by omega⟩
      have hcz := count_eq_zero.mpr hp
      exact .inl ⟨hne, hv, by omega⟩
  · intro v hv
    rcases mem_insert.mp hv with rfl | hv
    · have := hsplit v hseen
      omega
    have h1 := h.inDegree_popped v hv
    have h2 := hsplit v (h.popped_sub hv)
    omega
  · intro v hv i
    rw [hpush.mem_votes v (by rw [h.keys_eq]; exact hv)]
    show i ∈ (k.node v).votes.members ∨ _ ↔ _
    rw [h.mem_votes v hv, hlive v hv, hvotes, exists_mem_insert, or_assoc,
      or_comm (a := v ∈ ta.live leaf ∧ _)]
  · intro t i
    rw [mem_voters_give, h.mem_voters, hvotes, exists_mem_insert, or_comm]
    exact Iff.rfl
  · intro t set hset
    rw [lookup_txConflicts_give, Option.or_eq_some_iff] at hset
    rcases hset with hset | ⟨-, hset⟩
    · obtain ⟨u, hu, hrest⟩ := h.lookup_txConflicts t set hset
      exact ⟨u, mem_insert_of_mem hu, hrest⟩
    obtain ⟨tx, htx, rfl⟩ := Option.map_eq_some_iff.mp hset
    exact ⟨leaf, mem_insert_self _ _, tx, mem_of_find?_eq_some htx,
      by simpa using find?_some htx, rfl⟩
  · rintro t ⟨u, hu, tx, htx, hid⟩
    rw [mem_keys_iff, ← Option.isSome_iff_exists, lookup_txConflicts_give, Option.isSome_or,
      Option.isSome_map, Bool.or_eq_true]
    rcases mem_insert.mp hu with rfl | hu
    · exact .inr (find?_isSome.mpr ⟨tx, htx, decide_eq_true hid⟩)
    left
    rw [Option.isSome_iff_exists, ← mem_keys_iff]
    exact h.mem_txConflicts t ⟨u, hu, tx, htx, hid⟩

/-- The processing vertices that `pushLeaves` pops, with the votes each has by then. -/
def processed (ta : Topological) (pops : RangeOrder ID) : Nat → Kahn → List (ID × BitSet)
  | 0, _ => []
  | fuel + 1, k =>
    match pops.list k.leaves with
    | [] => []
    | leaf :: _ =>
      let votes := (k.node leaf).votes
      let k := { k with leaves := k.leaves.erase leaf }
      if leaf ∈ ta.nodes then
        (leaf, votes) :: ta.processed pops fuel ((ta.dag leaf).parents.foldl (pushToParent votes) k)
      else ta.processed pops fuel k

/-- Process a vertex: give its votes to what it holds. -/
def process (ta : Topological) (p : Pushed) (leaf : ID × BitSet) : Pushed :=
  (ta.contents leaf.1).foldl (fun p tx => p.give ta.cg leaf.2 tx) p

/-- What `pushLeaves` collects comes from processing those vertices, in that order. -/
theorem pushLeaves_eq {pops : RangeOrder ID} {p' : Pushed}
    (h : ta.pushLeaves pops fuel k p = .ok p') :
    p' = (ta.processed pops fuel k).foldl ta.process p := by
  induction fuel generalizing k p with
  | zero =>
    rw [pushLeaves] at h
    split at h
    · cases h
      rfl
    · cases h
  | succ fuel ih =>
    rw [pushLeaves] at h
    rw [processed]
    cases hpops : pops.list k.leaves with
    | nil =>
      rw [hpops] at h
      cases h
      rfl
    | cons leaf rest =>
      rw [hpops] at h
      by_cases hnodes : leaf ∈ ta.nodes
      · simp only [if_pos hnodes] at h ⊢
        exact ih h
      simp only [if_neg hnodes] at h ⊢
      exact ih h

/-- Every vertex that was seen is popped, and none twice. -/
theorem pushLeaves_spec (hs : ta.Sorted) (hc : ta.Closed votes seen) (pops : RangeOrder ID)
    (h : ta.Pushing votes seen popped k p) (hfuel : (seen \ popped).card ≤ fuel) :
    (∃ k' p', ta.pushLeaves pops fuel k p = .ok p' ∧ ta.Pushing votes seen seen k' p') ∧
      ((ta.processed pops fuel k).map Prod.fst).Nodup ∧
      ∀ v, v ∈ (ta.processed pops fuel k).map Prod.fst ↔ v ∈ seen \ popped := by
  induction fuel generalizing popped k p with
  | zero =>
    have hempty : seen \ popped = ∅ := card_eq_zero.mp (by omega)
    have hleaves : k.leaves = ∅ := by
      rw [eq_empty_iff_forall_notMem]
      intro v hv
      have := ((h.mem_leaves v).mp hv).1
      rw [hempty] at this
      exact notMem_empty v this
    have hall : popped = seen := h.popped_sub.antisymm (sdiff_eq_empty_iff_subset.mp hempty)
    subst hall
    refine ⟨⟨k, p, by rw [pushLeaves, if_pos hleaves], h⟩, nodup_nil, ?_⟩
    simp [processed]
  | succ fuel ih =>
    rw [pushLeaves, processed]
    cases hpops : pops.list k.leaves with
    | nil =>
      have hleaves : k.leaves = ∅ := pops.list_eq_nil_iff.mp hpops
      -- without a cycle, only the empty set has no leaf
      have hempty : seen \ popped = ∅ := by
        by_contra hne
        obtain ⟨height, hheight⟩ := hs.acyclic
        have hlower : ∀ u ∈ seen \ popped, ∀ p ∈ ta.live u, height p < height u :=
          fun u hu => hheight u (hc.sub_nodes (mem_sdiff.mp hu).1)
        obtain ⟨v, hv, hz⟩ := exists_inDegree_eq_zero (nonempty_iff_ne_empty.mpr hne) hlower
        have hleaf := (h.mem_leaves v).mpr ⟨hv, hz⟩
        rw [hleaves] at hleaf
        exact notMem_empty v hleaf
      have hall : popped = seen := h.popped_sub.antisymm (sdiff_eq_empty_iff_subset.mp hempty)
      subst hall
      exact ⟨⟨k, p, rfl, h⟩, nodup_nil, by simp⟩
    | cons leaf rest =>
      have hleaf : leaf ∈ k.leaves := by
        rw [← pops.mem_list, hpops]
        exact mem_cons_self
      have hmem := ((h.mem_leaves leaf).mp hleaf).1
      have hnodes : leaf ∈ ta.nodes := hc.sub_nodes (mem_sdiff.mp hmem).1
      obtain ⟨⟨k', p', hp', h'⟩, hnodup, hall⟩ := ih (h.pop hs hc hleaf) (by
        have := card_erase_of_mem hmem
        rw [← sdiff_insert] at this
        omega)
      simp only [if_pos hnodes]
      refine ⟨⟨k', p', hp', h'⟩, ?_, ?_⟩
      · -- the rest of the loop only pops vertices that are left
        rw [List.map_cons, List.nodup_cons, hall, sdiff_insert]
        exact ⟨notMem_erase _ _, hnodup⟩
      intro v
      rw [List.map_cons, List.mem_cons, hall, sdiff_insert, Finset.mem_erase]
      by_cases hv : v = leaf
      · subst hv
        exact iff_of_true (.inl rfl) hmem
      · simp [hv]

/-! ## The votes of the poll -/

private theorem mem_voters_foldl_unionSet (f : ID → BitSet) (t : ID) (l : List ID) (b : UniqueBag)
    (x : ID) (i : Fin 64) :
    i ∈ (l.foldl (fun b c => b.unionSet t (f c)) b).voters x ↔
      i ∈ b.voters x ∨ x = t ∧ ∃ c ∈ l, i ∈ (f c).members := by
  induction l generalizing b with
  | nil => simp
  | cons c l ih =>
    rw [foldl_cons, ih, mem_voters_unionSet, exists_mem_cons_iff]
    tauto

theorem mem_voters_conflictingVotes : i ∈ (p.conflictingVotes order).voters t ↔
      ∃ set, p.txConflicts.lookup t = some set ∧ ∃ c ∈ set, i ∈ p.votes.voters c := by
  have hfold : ∀ (l : List ID) (b : UniqueBag), i ∈ (l.foldl (fun b txID =>
      (order.list ((p.txConflicts.lookup txID).getD ∅)).foldl
        (fun b c => b.unionSet txID (p.votes.getSet c)) b) b).voters t ↔
      i ∈ b.voters t ∨ t ∈ l ∧ ∃ c ∈ (p.txConflicts.lookup t).getD ∅, i ∈ p.votes.voters c := by
    intro l
    induction l with
    | nil => simp
    | cons x l ih =>
      intro b
      rw [List.foldl_cons, ih, mem_voters_foldl_unionSet, List.mem_cons]
      by_cases hx : t = x
      · subst hx
        have hset : (∃ c ∈ order.list ((p.txConflicts.lookup t).getD ∅),
            i ∈ (p.votes.getSet c).members) ↔
            ∃ c ∈ (p.txConflicts.lookup t).getD ∅, i ∈ p.votes.voters c :=
          exists_congr fun c => and_congr_left fun _ => order.mem_list _ _
        rw [hset, or_assoc]
        refine or_congr_right ?_
        generalize (∃ c ∈ (p.txConflicts.lookup t).getD ∅, i ∈ p.votes.voters c) = Q
        tauto
      · tauto
  rw [Pushed.conflictingVotes, hfold]
  simp only [voters_empty, Finset.notMem_empty, false_or, RangeOrder.mem_list,
    mem_keys_iff]
  constructor
  · rintro ⟨⟨set, hset⟩, hex⟩
    rw [hset] at hex
    exact ⟨set, hset, hex⟩
  rintro ⟨set, hset, hex⟩
  rw [hset]
  exact ⟨⟨set, rfl⟩, hex⟩

open Classical in
/-- The voters of a transaction: those that named a processing vertex with an ancestor that
    holds the transaction. -/
noncomputable def supporters (ta : Topological) (responses : UniqueBag) (t : ID) :
    Finset (Fin 64) :=
  Finset.univ.filter fun i => ∃ v, ta.Holds v t ∧ ta.Backs (ta.processingVoters responses) v i

/-- `c` conflicts with the transaction `t` of a processing vertex. -/
def Conflicting (ta : Topological) (t c : ID) : Prop :=
  ∃ v ∈ ta.nodes, ∃ tx ∈ ta.contents v, tx.id = t ∧ c ∈ ta.cg.conflicts tx

open Classical in
/-- The voters that support `t` and no transaction that conflicts with it. -/
noncomputable def unopposed (ta : Topological) (responses : UniqueBag) (t : ID) : Finset (Fin 64) :=
  (ta.supporters responses t).filter fun i =>
    ∀ c, ta.Conflicting t c → i ∉ ta.supporters responses c

theorem mem_supporters : i ∈ ta.supporters responses t ↔
      ∃ v, ta.Holds v t ∧ ta.Backs (ta.processingVoters responses) v i := by
  simp [supporters]

theorem mem_unopposed : i ∈ ta.unopposed responses t ↔ i ∈ ta.supporters responses t ∧
      ∀ c, ta.Conflicting t c → i ∉ ta.supporters responses c := by
  simp [unopposed]

/-- What is seen in a poll. -/
theorem Marked.closed (h : ta.Marked (ta.processingVoters responses) [] k)
    (hvoted : ∀ v ∈ ta.nodes, v ∈ responses.keys → v ∈ k.kahnNodes.keys) :
    ta.Closed (ta.processingVoters responses) k.kahnNodes.keys := by
  refine ⟨h.keys_sub, fun u hu p hp => ?_, fun v i hi => ?_⟩
  swap
  · obtain ⟨hnodes, hkeys⟩ := mem_keys_of_mem_processingVoters hi
    exact hvoted v hnodes hkeys
  -- a live parent of a vertex seen has a link to it, so it has a node
  by_contra hnot
  have heq := h.inDegree_eq p
  rw [node_of_notMem hnot, count_nil] at heq
  have hzero : inDegree ta.live k.kahnNodes.keys p = 0 := by
    have : (KahnNode.zero.inDegree : Int) = 0 := rfl
    omega
  exact inDegree_eq_zero_iff.mp hzero u hu hp

/-- The sort before the first leaf is popped. -/
theorem Marked.pushing (h : ta.Marked votes [] k) :
    ta.Pushing votes k.kahnNodes.keys ∅ k { votes := ∅, txConflicts := ∅ } := by
  have hdeg : ∀ v, (k.node v).inDegree = inDegree ta.live k.kahnNodes.keys v := by
    intro v
    have := h.inDegree_eq v
    rw [count_nil] at this
    omega
  refine ⟨rfl, empty_subset _, ?_, ?_, by simp, ?_, by simp, by simp, by simp⟩
  · intro v _
    rw [sdiff_empty]
    exact hdeg v
  · intro v
    rw [h.mem_leaves, sdiff_empty, hdeg]
    simp
  intro v _ i
  rw [h.votes_eq]
  simp

/-- The votes that are subtracted from a supporter are those for conflicting transactions. -/
theorem Pushing.mem_conflictingVotes (hs : ta.Sorted)
    (hc : ta.Closed (ta.processingVoters responses) seen)
    (h : ta.Pushing (ta.processingVoters responses) seen seen k p)
    (hvoters : ∀ t i, i ∈ p.votes.voters t ↔ i ∈ ta.supporters responses t) (order : RangeOrder ID)
    (hi : i ∈ ta.supporters responses t) :
    i ∈ (p.conflictingVotes order).voters t ↔
      ∃ c, ta.Conflicting t c ∧ i ∈ ta.supporters responses c := by
  rw [mem_voters_conflictingVotes]
  constructor
  · rintro ⟨set, hset, c, hcmem, hci⟩
    obtain ⟨u, hu, tx, htx, hid, rfl⟩ := h.lookup_txConflicts t set hset
    exact ⟨c, ⟨u, hc.sub_nodes hu, tx, htx, hid, hcmem⟩, (hvoters c i).mp hci⟩
  rintro ⟨c, ⟨v, hv, tx, htx, hid, hcmem⟩, hci⟩
  obtain ⟨u, hu, hholds, -⟩ := (h.mem_voters t i).mp ((hvoters t i).mpr hi)
  obtain ⟨set, hset⟩ := (mem_keys_iff _ _).mp (h.mem_txConflicts t ⟨u, hu, hholds⟩)
  -- the conflicts that were looked up are those of the transaction
  obtain ⟨w, hw, tx', htx', hid', rfl⟩ := h.lookup_txConflicts t set hset
  have hsame := hs.unique w (hc.sub_nodes hw) v hv tx' htx' tx htx (hid'.trans hid.symm)
  subst hsame
  exact ⟨_, hset, c, hcmem, (hvoters c i).mpr hci⟩

/-- A poll counts for each transaction the voters that support it and no conflicting one, in
    whichever order the vertices are visited, and processes the vertices reached once. -/
theorem pushVotes_spec (hs : ta.Sorted) (order pops : RangeOrder ID) (responses : UniqueBag) :
    ∃ k p, ta.calculateInDegree order responses = .ok k ∧
      ta.pushLeaves pops ta.nodes.card k { votes := ∅, txConflicts := ∅ } = .ok p ∧
      ((ta.processed pops ta.nodes.card k).map Prod.fst).Nodup ∧
      (∀ v, v ∈ (ta.processed pops ta.nodes.card k).map Prod.fst ↔ ta.Reached responses v) ∧
      ∀ t, (p.votes.difference (p.conflictingVotes order)).voters t = ta.unopposed responses t := by
  obtain ⟨k, hk, hmarked, hvoted, hreached⟩ := calculateInDegree_spec hs order responses
  have hc := hmarked.closed hvoted
  have hfuel : (k.kahnNodes.keys \ ∅).card ≤ ta.nodes.card := by
    rw [sdiff_empty]
    exact card_le_card hmarked.keys_sub
  obtain ⟨⟨k', p, hp, h⟩, hnodup, hall⟩ := pushLeaves_spec hs hc pops hmarked.pushing hfuel
  refine ⟨k, p, hk, hp, hnodup, ?_, ?_⟩
  · intro v
    rw [hall, sdiff_empty]
    constructor
    · exact hreached v
    · rintro ⟨w, hw, hkey, ha⟩
      exact ha.mem_of_closed hc.live_mem (hvoted w hw hkey)
  have hvoters : ∀ t i, i ∈ p.votes.voters t ↔ i ∈ ta.supporters responses t := by
    intro t i
    rw [h.mem_voters, mem_supporters]
    constructor
    · rintro ⟨v, -, hv⟩
      exact ⟨v, hv⟩
    · rintro ⟨v, hv, hb⟩
      exact ⟨v, hc.mem_of_backs hb, hv, hb⟩
  intro t
  rw [voters_difference]
  ext i
  rw [mem_sdiff, mem_unopposed, hvoters]
  refine and_congr_right fun hi => ?_
  rw [h.mem_conflictingVotes hs hc hvoters order hi]
  push Not
  exact Iff.rfl

/-- The transactions that meet the threshold in a poll are those with alpha voters that
    support no conflicting transaction, in whichever order the vertices are visited. -/
theorem collectVotes_spec (hs : ta.Sorted) (halpha : 0 < ta.params.alpha)
    (order pops : RangeOrder ID) (responses : UniqueBag) :
    ∃ b, ta.collectVotes order pops responses = .ok b ∧
      ∀ t, t ∈ b.metThreshold ↔ ta.params.alpha ≤ (ta.unopposed responses t).card := by
  obtain ⟨k, p, hk, hp, -, -, hvoters⟩ := pushVotes_spec hs order pops responses
  refine ⟨(p.votes.difference (p.conflictingVotes order)).bag order ta.params.alpha, ?_, ?_⟩
  · rw [collectVotes, hk]
    show ta.pushVotes order pops k = _
    rw [pushVotes, hp]
    rfl
  · intro t
    rw [mem_metThreshold_bag halpha, hvoters]

/-- A poll over the processing vertices: whatever the responses and the orders in which maps are
    visited and leaves are popped, the vertices voted for and their ancestors are processed once
    each, and each transaction that they hold gets the voters that support it and none of its
    conflicts. -/
theorem collectVotes_counts (hs : ta.Sorted) (order pops : RangeOrder ID) (responses : UniqueBag) :
    ∃ k p b, ta.calculateInDegree order responses = .ok k ∧ ta.pushVotes order pops k = .ok b ∧
      ta.pushLeaves pops ta.nodes.card k { votes := ∅, txConflicts := ∅ } = .ok p ∧
      p = (ta.processed pops ta.nodes.card k).foldl ta.process { votes := ∅, txConflicts := ∅ } ∧
      ((ta.processed pops ta.nodes.card k).map Prod.fst).Nodup ∧
      (∀ v, v ∈ (ta.processed pops ta.nodes.card k).map Prod.fst ↔ ta.Reached responses v) ∧
      ∀ v, ta.Reached responses v → ∀ tx ∈ ta.contents v,
        b.count tx.id = (ta.supporters responses tx.id \
          (ta.cg.conflicts tx).biUnion (ta.supporters responses)).card := by
  obtain ⟨k, p, hk, hp, hnodup, hall, hvoters⟩ := pushVotes_spec hs order pops responses
  refine ⟨k, p, (p.votes.difference (p.conflictingVotes order)).bag order ta.params.alpha, hk, ?_,
    hp, pushLeaves_eq hp, hnodup, hall, ?_⟩
  · rw [pushVotes, hp]
    rfl
  · rintro v ⟨w, hw, -, ha⟩ tx htx
    have hv : v ∈ ta.nodes := ha.mem_of_closed hs.live_sub hw
    rw [count_bag, hvoters]
    congr 1
    ext i
    rw [mem_unopposed, mem_sdiff, mem_biUnion]
    refine and_congr_right fun _ => ?_
    constructor
    · rintro hnone ⟨c, hc, hi⟩
      exact hnone c ⟨v, hv, tx, htx, rfl, hc⟩ hi
    rintro hnone c ⟨u, hu, tx', htx', hid, hc⟩ hi
    -- a transaction is the same wherever it stands
    have hsame := hs.unique u hu v hv tx' htx' tx htx hid
    subst hsame
    exact hnone ⟨c, hc, hi⟩

/-- Parameters for which three of five votes are a majority. -/
def threeOfFive : Parameters :=
  { SavannahNode.Parameters.minimal with k := 5, alpha := 3, parents := 2, batchSize := 1 }

/-- Vertices 1 and 2 on the genesis 9, with transactions 11 and 12 that both spend 21, and
    vertex 3 on vertex 1. -/
def twoSpenders (id : ID) : Vertex :=
  if id = ⟨1⟩ then
    { parents := [⟨9⟩]
      txs := [{ id := ⟨11⟩, inputIDs := [⟨21⟩], dependencies := [], whitelist := none }]
      whitelist := none }
  else if id = ⟨2⟩ then
    { parents := [⟨9⟩]
      txs := [{ id := ⟨12⟩, inputIDs := [⟨21⟩], dependencies := [], whitelist := none }]
      whitelist := none }
  else if id = ⟨3⟩ then { parents := [⟨1⟩], txs := [], whitelist := none }
  else { parents := [], txs := [], whitelist := none }

/-- Only the genesis is accepted when consensus starts. -/
def genesisAccepted (id : ID) : Status := if id = ⟨9⟩ then .accepted else .processing

/-- Vertices 1 and 3 are processing, and no transaction is. -/
def oneSpender : Topological where
  dag := twoSpenders
  params := threeOfFive
  pollNumber := 0
  vts := { status := genesisAccepted, calls := [] }
  nodes := {⟨1⟩, ⟨3⟩}
  cg := {
    params := threeOfFive.toParameters
    preferences := ∅, virtuous := ∅, virtuousVoting := ∅
    pollNumber := 0
    pendingAccept := ∅, pendingReject := ∅, acceptors := [], rejectors := []
    txs := ∅, utxos := ∅, whitelists := ∅
    decidables := { status := fun _ => .accepted, calls := [] } }
  preferred := ∅
  virtuous := ∅
  orphans := ∅
  virtuousVoting := ∅
  frontier := {⟨3⟩}
  preferenceCache := ∅
  virtuousCache := ∅

theorem sorted_oneSpender : oneSpender.Sorted where
  undecided := by decide
  live_sub := by decide
  acyclic := ⟨fun id => id.toBits.toNat, by decide⟩
  unique := by decide

theorem collectVotes_counts_oneSpender :
    ∃ k b, oneSpender.calculateInDegree .ids (UniqueBag.add ∅ 4 [⟨3⟩]) = .ok k ∧
      oneSpender.pushVotes .ids .ids k = .ok b ∧
      ∀ v, oneSpender.Reached (UniqueBag.add ∅ 4 [⟨3⟩]) v → ∀ tx ∈ oneSpender.contents v,
        b.count tx.id = (oneSpender.supporters (UniqueBag.add ∅ 4 [⟨3⟩]) tx.id \
          (oneSpender.cg.conflicts tx).biUnion
            (oneSpender.supporters (UniqueBag.add ∅ 4 [⟨3⟩]))).card := by
  obtain ⟨k, _, b, hk, hb, -, -, -, -, hcount⟩ :=
    collectVotes_counts sorted_oneSpender .ids .ids (UniqueBag.add ∅ 4 [⟨3⟩])
  exact ⟨k, b, hk, hb, hcount⟩

end SavannahNode.Avalanche.Topological
