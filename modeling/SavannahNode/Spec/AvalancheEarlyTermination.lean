import SavannahNode.Native.AvalanchePoll
import SavannahNode.Spec.AvalancheVotes
import Mathlib.Data.Fintype.Fin

/-!
# Early termination of avalanche polls

Once an avalanche poll is finished, the validators that have not responded yet cannot change
which transactions meet the threshold, as long as no transaction with alpha supporters loses
its majority to the votes that are taken away for conflicting transactions: the poll counts
voters of vertices, and does not see that subtraction. A transaction that loses it can get it
back from the validators that are left, when there are enough of them.

## Key results

- `AvalanchePoll.Later.mem_voters_iff`: the bits of voters that responded are settled
- `AvalanchePoll.mem_voters_runAll`: all the pending bits when the rest name the same vertices
- `Avalanche.Topological.metThreshold_of_finished`: exactly when the current votes and every
  completion of them agree
- `Avalanche.Topological.exists_finished_not_settled`: they disagree when conflicting votes are
  subtracted
-/

namespace SavannahNode

open AvalanchePoll Finset

namespace AvalanchePoll

variable {p p' : AvalanchePoll} {i : Fin 64}

/-- The samples of a validator that responds take the bits from the new number of pending
    responses up to the old one. -/
theorem mem_voters_vote {vdr : NodeID} {ids : List ID} {v : ID} :
    i ∈ (p.vote vdr ids).votes.voters v ↔
      i ∈ p.votes.voters v ∨ v ∈ ids ∧ (p.vote vdr ids).polled.len ≤ i ∧ i < p.polled.len := by
  have hlen := p.polled.len_remove vdr
  have hfold : ∀ (n count : Nat) (b : UniqueBag),
      i ∈ ((List.range count).foldl (fun b j => b.add (n + j) ids) b).voters v ↔
        i ∈ b.voters v ∨ v ∈ ids ∧ n ≤ i ∧ i < n + count := by
    intro n count b
    induction count with
    | zero =>
      refine ⟨.inl, ?_⟩
      rintro (h | ⟨-, h⟩)
      · exact h
      · omega
    | succ count ih =>
      rw [List.range_succ, List.foldl_append, List.foldl_cons, List.foldl_nil,
        UniqueBag.mem_voters_add, ih]
      constructor
      · rintro ((h | ⟨hv, h⟩) | ⟨hv, h⟩)
        · exact .inl h
        · exact .inr ⟨hv, by omega⟩
        · exact .inr ⟨hv, by omega⟩
      rintro (h | ⟨hv, h⟩)
      · exact .inl (.inl h)
      · by_cases hi : i.val = n + count
        · exact .inr ⟨hv, hi⟩
        · exact .inl (.inr ⟨hv, by omega⟩)
  simp only [vote, hfold, hlen]

/-- `p'` is `p` after more responses: only bits of pending responses are new. -/
structure Later (p p' : AvalanchePoll) : Prop where
  alpha_eq : p'.alpha = p.alpha
  len_le : p'.polled.len ≤ p.polled.len
  mem_voters : ∀ v i, i ∈ p'.votes.voters v → i ∈ p.votes.voters v ∨
    p'.polled.len ≤ i ∧ i < p.polled.len
  voters_sub : ∀ v, p.votes.voters v ⊆ p'.votes.voters v

theorem Later.refl (p : AvalanchePoll) : p.Later p :=
  ⟨rfl, le_refl _, fun _ _ h => .inl h, fun _ => Finset.Subset.refl _⟩

theorem later_vote (p : AvalanchePoll) (vdr : NodeID) (ids : List ID) :
    p.Later (p.vote vdr ids) := by
  refine ⟨rfl, ?_, fun v i hi => ?_, fun v i hi => ?_⟩
  · have := p.polled.len_remove vdr
    show (p.polled.remove vdr).len ≤ _
    omega
  · rcases mem_voters_vote.mp hi with hi | ⟨-, hi⟩
    · exact .inl hi
    · exact .inr hi
  · exact mem_voters_vote.mpr (.inl hi)

theorem Later.trans {p'' : AvalanchePoll} (h : p.Later p') (h' : p'.Later p'') : p.Later p'' := by
  refine ⟨h'.alpha_eq.trans h.alpha_eq, h'.len_le.trans h.len_le, fun v i hi => ?_,
    fun v => (h.voters_sub v).trans (h'.voters_sub v)⟩
  have hle := h.len_le
  have hle' := h'.len_le
  rcases h'.mem_voters v i hi with hi | hi
  · rcases h.mem_voters v i hi with hi | hi
    · exact .inl hi
    · exact .inr ⟨by omega, hi.2⟩
  · exact .inr ⟨hi.1, by omega⟩

theorem later_run (p : AvalanchePoll) (responses : List (NodeID × List ID)) :
    p.Later (p.run responses) := by
  induction responses generalizing p with
  | nil => exact .refl p
  | cons r responses ih => exact (p.later_vote r.1 r.2).trans (ih _)

/-- No bit of a pending response is taken. -/
def Settled (p : AvalanchePoll) : Prop := ∀ v i, i ∈ p.votes.voters v → p.polled.len ≤ i.val

theorem settled_new (alpha : Int) (vdrs : NodeIDBag) : (new alpha vdrs).Settled := by
  intro v i hi
  simp [new] at hi

theorem Settled.later (hp : p.Settled) (h : p.Later p') : p'.Settled := by
  intro v i hi
  rcases h.mem_voters v i hi with hi | hi
  · exact h.len_le.trans (hp v i hi)
  · exact hi.1

/-- The voters that responded are the same after more responses. -/
theorem Later.mem_voters_iff (h : p.Later p') (hi : p.polled.len ≤ i.val) (v : ID) :
    i ∈ p'.votes.voters v ↔ i ∈ p.votes.voters v := by
  refine ⟨fun hv => ?_, fun hv => h.voters_sub v hv⟩
  rcases h.mem_voters v i hv with hv | hv
  · exact hv
  · omega

/-- Responses that all name the same vertices: the bits that they take are those of the
    responses that are no longer pending. -/
theorem mem_voters_run_map (p : AvalanchePoll) (vdrs : List NodeID) (ids : List ID) {v : ID} :
    i ∈ (p.run (vdrs.map fun vdr => (vdr, ids))).votes.voters v ↔ i ∈ p.votes.voters v ∨
      v ∈ ids ∧ (p.run (vdrs.map fun vdr => (vdr, ids))).polled.len ≤ i ∧ i < p.polled.len := by
  induction vdrs generalizing p with
  | nil =>
    refine ⟨.inl, ?_⟩
    rintro (h | ⟨-, hle, hlt⟩)
    · exact h
    · exact absurd hlt (not_lt.mpr hle)
  | cons vdr vdrs ih =>
    have hle := (p.later_vote vdr ids).len_le
    have hle' := ((p.vote vdr ids).later_run (vdrs.map fun vdr => (vdr, ids))).len_le
    rw [List.map_cons]
    show i ∈ ((p.vote vdr ids).run _).votes.voters v ↔
      _ ∨ v ∈ ids ∧ ((p.vote vdr ids).run _).polled.len ≤ _ ∧ _
    rw [ih, mem_voters_vote]
    constructor
    · rintro ((h | ⟨hv, h⟩) | ⟨hv, h⟩)
      · exact .inl h
      · exact .inr ⟨hv, by omega⟩
      · exact .inr ⟨hv, by omega⟩
    rintro (h | ⟨hv, h⟩)
    · exact .inl (.inl h)
    · by_cases hi : (p.vote vdr ids).polled.len ≤ i
      · exact .inl (.inr ⟨hv, hi, h.2⟩)
      · exact .inr ⟨hv, h.1, by omega⟩

/-- No response is pending when every validator of the bag has responded. -/
theorem len_polled_run (p : AvalanchePoll) (vdrs : List NodeID) (ids : List ID)
    (h : ∀ c ∈ p.polled.counts, c.1 ∈ vdrs) :
    (p.run (vdrs.map fun vdr => (vdr, ids))).polled.len = 0 := by
  induction vdrs generalizing p with
  | nil =>
    have hnil : p.polled.counts = [] := List.eq_nil_iff_forall_not_mem.mpr fun c hc =>
      absurd (h c hc) List.not_mem_nil
    show p.polled.size = 0
    rw [p.polled.size_eq, hnil]
    rfl
  | cons vdr vdrs ih =>
    refine ih (p.vote vdr ids) fun c hc => ?_
    obtain ⟨hc, hne⟩ := List.mem_filter.mp hc
    exact (List.mem_cons.mp (h c hc)).resolve_left (of_decide_eq_true hne)

/-- When the validators that are left all name the same vertices, these get every pending bit. -/
theorem mem_voters_runAll (hp : p.Settled) (ids : List ID) (hi : i < p.polled.len) (v : ID) :
    i ∈ (p.run (p.polled.list.map fun vdr => (vdr, ids))).votes.voters v ↔ v ∈ ids := by
  have hnone := p.len_polled_run p.polled.list ids fun c hc => List.mem_map_of_mem hc
  rw [mem_voters_run_map, hnone]
  constructor
  · rintro (h | ⟨hv, -⟩)
    · exact absurd (hp v i h) (by omega)
    · exact hv
  · exact fun hv => .inr ⟨hv, Nat.zero_le _, hi⟩

/-- The voters of all vertices with less than alpha votes are partial votes. -/
theorem mem_partialVotes {order : RangeOrder ID} {v : ID} (hi : i ∈ p.votes.voters v)
    (hv : ((p.votes.voters v).card : Int) < p.alpha) : i ∈ (p.partialVotes order).members := by
  have hlen : ((p.votes.getSet v).len : Int) < p.alpha := hv
  have hfold : ∀ (l : List ID) (bits : BitSet), v ∈ l ∨ i ∈ bits.members →
      i ∈ (l.foldl (fun bits vote =>
        if ((p.votes.getSet vote).len : Int) < p.alpha then bits.union (p.votes.getSet vote)
        else bits) bits).members := by
    intro l
    induction l with
    | nil => simp
    | cons x l ih =>
      intro bits hmem
      rw [List.foldl_cons]
      apply ih
      by_cases hx : v = x
      · subst hx
        rw [if_pos hlen, BitSet.members_union, mem_union]
        exact .inr (.inr hi)
      rcases hmem with hmem | hmem
      · exact .inl ((List.mem_cons.mp hmem).resolve_left hx)
      right
      split
      · rw [BitSet.members_union, mem_union]
        exact .inl hmem
      · exact hmem
  exact hfold _ 0 (.inl ((order.mem_list _ _).mpr (UniqueBag.mem_keys_of_mem_voters hi)))

end AvalanchePoll

namespace Avalanche.Topological

open AvalanchePoll (Later Settled)

variable {ta : Topological} {p p' : AvalanchePoll}

/-- What a voter supports depends on the vertices it named only. -/
theorem mem_supporters_congr {b b' : UniqueBag} {i j : Fin 64}
    (h : ∀ v, i ∈ b.voters v ↔ j ∈ b'.voters v) (t : ID) :
    i ∈ ta.supporters b t ↔ j ∈ ta.supporters b' t := by
  rw [mem_supporters, mem_supporters]
  refine exists_congr fun v => and_congr_right fun _ => exists_congr fun w =>
    and_congr_right fun _ => ?_
  rw [processingVoters, processingVoters]
  split
  · exact h w
  · simp

theorem mem_unopposed_congr {b b' : UniqueBag} {i j : Fin 64}
    (h : ∀ v, i ∈ b.voters v ↔ j ∈ b'.voters v) (t : ID) :
    i ∈ ta.unopposed b t ↔ j ∈ ta.unopposed b' t := by
  rw [mem_unopposed, mem_unopposed, mem_supporters_congr h]
  refine and_congr_right fun _ => forall₂_congr fun c _ => not_congr ?_
  exact mem_supporters_congr h c

/-- The voters that responded count for the same transactions after more responses. -/
theorem mem_unopposed_later (h : p.Later p') (hi : p.polled.len ≤ i.val) (t : ID) :
    i ∈ ta.unopposed p'.result t ↔ i ∈ ta.unopposed p.result t :=
  mem_unopposed_congr (fun v => h.mem_voters_iff hi v) t

/-- A response that names the vertices `ids` counts for the transaction: it supports the
    transaction, and none that conflicts with it. -/
def CountsFor (ta : Topological) (ids : List ID) (t : ID) : Prop :=
  0 ∈ ta.unopposed (UniqueBag.add ∅ 0 ids) t

/-- A voter that supports a transaction responded. -/
theorem len_le_of_mem_supporters (hp : p.Settled) {t : ID}
    (hi : i ∈ ta.supporters p.result t) : p.polled.len ≤ i.val := by
  obtain ⟨v, -, w, -, hw⟩ := mem_supporters.mp hi
  rw [processingVoters] at hw
  split at hw
  · exact hp w i hw
  · cases notMem_empty i hw

/-- The supporters of a transaction without a majority all voted for vertices without one. -/
theorem supporters_sub_partialVotes (order : RangeOrder ID) {t : ID}
    (ht : ((ta.supporters p.result t).card : Int) < p.alpha) :
    ta.supporters p.result t ⊆ (p.partialVotes order).members := by
  intro i hi
  obtain ⟨v, hv, w, hw, hiw⟩ := mem_supporters.mp hi
  -- all voters of the vertex support the transaction
  have hsub : ta.processingVoters p.result w ⊆ ta.supporters p.result t :=
    fun j hj => mem_supporters.mpr ⟨v, hv, w, hw, hj⟩
  have hcard := card_le_card hsub
  rw [processingVoters] at hiw hcard
  split at hiw
  · rename_i hmem
    rw [if_pos hmem] at hcard
    exact mem_partialVotes hiw (by
      have : (p.votes.voters w).card ≤ (ta.supporters p.result t).card := hcard
      omega)
  · cases notMem_empty i hiw

/-- Pending responses add at most one voter each. -/
theorem card_unopposed_later (h : p.Later p') (t : ID) :
    (ta.unopposed p'.result t).card ≤ (ta.unopposed p.result t).card + p.polled.len := by
  have hsub : ta.unopposed p'.result t ⊆ ta.unopposed p.result t ∪
      (univ : Finset (Fin 64)).filter fun i => i.val < p.polled.len := by
    intro i hi
    by_cases hlt : i.val < p.polled.len
    · exact mem_union_right _ (mem_filter.mpr ⟨mem_univ i, hlt⟩)
    · exact mem_union_left _ ((mem_unopposed_later h (by omega) t).mp hi)
  have hcard := (card_le_card hsub).trans (card_union_le _ _)
  rw [Fin.card_filter_val_lt] at hcard
  omega

theorem card_unopposed_mono (hp : p.Settled) (h : p.Later p') (t : ID) :
    (ta.unopposed p.result t).card ≤ (ta.unopposed p'.result t).card := by
  refine card_le_card fun i hi => ?_
  exact (mem_unopposed_later h (len_le_of_mem_supporters hp (mem_unopposed.mp hi).1) t).mpr hi

/-- When the validators that are left all name vertices that count for the transaction, each of
    them is one more voter. -/
theorem card_unopposed_runAll (hp : p.Settled) (hlen : p.polled.len ≤ 64) {ids : List ID} {t : ID}
    (h : ta.CountsFor ids t) : (ta.unopposed p.result t).card + p.polled.len ≤
      (ta.unopposed (p.run (p.polled.list.map fun vdr => (vdr, ids))).result t).card := by
  have hnew : (univ : Finset (Fin 64)).filter (fun i => i.val < p.polled.len) ⊆
      ta.unopposed (p.run (p.polled.list.map fun vdr => (vdr, ids))).result t := by
    intro i hi
    refine (mem_unopposed_congr (fun v => ?_) t).mpr h
    rw [UniqueBag.mem_voters_add]
    simp only [UniqueBag.voters_empty, notMem_empty, false_or, Fin.val_zero, and_true]
    exact mem_voters_runAll hp ids (mem_filter.mp hi).2 v
  have hold : ta.unopposed p.result t ⊆
      ta.unopposed (p.run (p.polled.list.map fun vdr => (vdr, ids))).result t := by
    intro i hi
    have hresponded := len_le_of_mem_supporters hp (mem_unopposed.mp hi).1
    exact (mem_unopposed_later (p.later_run _) hresponded t).mpr hi
  -- the new bits are below those of the voters that had responded
  have hdisj : Disjoint (ta.unopposed p.result t)
      ((univ : Finset (Fin 64)).filter fun i => i.val < p.polled.len) := by
    refine disjoint_left.mpr fun i hi hlt => ?_
    have hresponded := len_le_of_mem_supporters hp (mem_unopposed.mp hi).1
    exact absurd (mem_filter.mp hlt).2 (not_lt.mpr hresponded)
  have hcard := card_le_card (union_subset hold hnew)
  rw [card_union_of_disjoint hdisj, Fin.card_filter_val_lt] at hcard
  omega

/-- Only a transaction that some response counts for has voters. -/
theorem exists_countsFor {b : UniqueBag} {i : Fin 64} {t : ID} (hi : i ∈ ta.unopposed b t) :
    ∃ ids, ta.CountsFor ids t := by
  refine ⟨(b.keys.filter fun v => i ∈ b.voters v).toList, ?_⟩
  refine (mem_unopposed_congr (fun v => ?_) t).mp hi
  rw [UniqueBag.mem_voters_add]
  simp only [UniqueBag.voters_empty, notMem_empty, false_or, Fin.val_zero, and_true, mem_toList,
    mem_filter]
  exact ⟨fun h => ⟨UniqueBag.mem_keys_of_mem_voters h, h⟩, fun h => h.2⟩

/-- Of a finished poll, a transaction without alpha supporters cannot get them any more. -/
theorem card_add_lt_of_finished {order : RangeOrder ID} (hfinished : p.finished order = true)
    {t : ID} (hfew : ((ta.supporters p.result t).card : Int) < p.alpha) :
    ((ta.supporters p.result t).card + p.polled.len : Int) < p.alpha := by
  have hsup := card_le_card (supporters_sub_partialVotes order hfew)
  rw [finished] at hfinished
  split at hfinished
  · omega
  split at hfinished
  · cases hfinished
  have hlt : ((p.partialVotes order).members.card + p.polled.len : Int) < p.alpha :=
    of_decide_eq_true hfinished
  omega

/-- **Early termination**: once the poll is finished, no responses of the remaining validators
    change the transactions that meet the threshold, exactly when each transaction that has alpha
    supporters, and that a response can count for, either keeps alpha voters when the supporters
    of conflicting transactions are taken away, or is too far below for the validators that are
    left. -/
theorem metThreshold_of_finished (hs : ta.Sorted) (hparams : ta.params.valid = none)
    {vdrs : NodeIDBag} (hsize : vdrs.len ≤ 64) {responses : List (NodeID × List ID)}
    (hp : p = (AvalanchePoll.new ta.params.alpha vdrs).run responses) {order : RangeOrder ID}
    (hfinished : p.finished order = true) :
    (∀ (more : List (NodeID × List ID)) (order₁ pops₁ order₂ pops₂ : RangeOrder ID),
      ∃ current completed, ta.collectVotes order₁ pops₁ p.result = .ok current ∧
        ta.collectVotes order₂ pops₂ (p.run more).result = .ok completed ∧
        current.metThreshold = completed.metThreshold) ↔
    ∀ t, (∃ ids, ta.CountsFor ids t) → ta.params.alpha ≤ (ta.supporters p.result t).card →
      ta.params.alpha ≤ (ta.unopposed p.result t).card ∨
        ((ta.unopposed p.result t).card + p.polled.len : Int) < ta.params.alpha := by
  have halpha : 0 < ta.params.alpha := by
    have hverify : ta.params.toParameters.verify = none := by
      rw [Parameters.valid] at hparams
      split at hparams
      · cases hparams
      split at hparams
      · cases hparams
      · exact hparams
    exact (SavannahNode.Parameters.valid_of_verify hverify).alpha_pos
  have hrun := (AvalanchePoll.new ta.params.alpha vdrs).later_run responses
  rw [← hp] at hrun
  have hsettled : p.Settled := (settled_new _ _).later hrun
  have hpalpha : p.alpha = ta.params.alpha := hrun.alpha_eq
  constructor
  · -- the validators that are left all name the vertices that count for `t`
    rintro hall t ⟨ids, hids⟩ -
    obtain ⟨current, completed, hcurrent, hcompleted, heq⟩ :=
      hall (p.polled.list.map fun vdr => (vdr, ids)) .ids .ids .ids .ids
    obtain ⟨_, hcurrent', hmet⟩ := collectVotes_spec hs halpha .ids .ids p.result
    obtain ⟨_, hcompleted', hmet'⟩ := collectVotes_spec hs halpha .ids .ids
      (p.run (p.polled.list.map fun vdr => (vdr, ids))).result
    obtain rfl := Except.ok.inj (hcurrent.symm.trans hcurrent')
    obtain rfl := Except.ok.inj (hcompleted.symm.trans hcompleted')
    have hgain := card_unopposed_runAll hsettled (hrun.len_le.trans hsize) hids
    by_contra hnot
    obtain ⟨hlow, hhigh⟩ := not_or.mp hnot
    refine hlow ((hmet t).mp ?_)
    rw [heq, hmet']
    omega
  intro hcond more order₁ pops₁ order₂ pops₂
  obtain ⟨current, hcurrent, hmet⟩ := collectVotes_spec hs halpha order₁ pops₁ p.result
  obtain ⟨completed, hcompleted, hmet'⟩ := collectVotes_spec hs halpha order₂ pops₂
    (p.run more).result
  refine ⟨current, completed, hcurrent, hcompleted, ?_⟩
  ext t
  rw [hmet, hmet']
  have hmono : (ta.unopposed p.result t).card ≤ (ta.unopposed (p.run more).result t).card :=
    card_unopposed_mono hsettled (p.later_run more) t
  have hadd : (ta.unopposed (p.run more).result t).card ≤
      (ta.unopposed p.result t).card + p.polled.len := card_unopposed_later (p.later_run more) t
  refine ⟨fun h => by omega, fun h => ?_⟩
  -- what meets the threshold has a voter, so some response counts for it
  obtain ⟨i, hi⟩ := card_pos.mp (by omega : 0 < (ta.unopposed (p.run more).result t).card)
  by_cases hfew : ((ta.supporters p.result t).card : Int) < p.alpha
  · have hlt := card_add_lt_of_finished hfinished hfew
    have hunopp : (ta.unopposed p.result t).card ≤ (ta.supporters p.result t).card :=
      card_le_card fun i hi => (mem_unopposed.mp hi).1
    omega
  · have := hcond t (exists_countsFor hi) (by omega)
    omega

/-! ## Two vertices with conflicting transactions -/

theorem unopposed_oneSpender (responses : UniqueBag) (t : ID) :
    oneSpender.unopposed responses t = oneSpender.supporters responses t := by
  have hnone : ∀ v ∈ oneSpender.nodes, ∀ tx ∈ oneSpender.contents v,
      oneSpender.cg.conflicts tx = ∅ := by decide
  ext i
  rw [mem_unopposed]
  refine and_iff_left ?_
  rintro c ⟨v, hv, tx, htx, -, hc⟩
  rw [hnone v hv tx htx] at hc
  exact absurd hc (notMem_empty c)

/-- Five validators. -/
def fiveVdrs : NodeIDBag := NodeIDBag.empty.add [⟨1⟩, ⟨2⟩, ⟨3⟩, ⟨4⟩, ⟨5⟩]

/-- Three votes for vertex 3 settle the transaction of its parent, whatever the other two
    validators name. -/
theorem metThreshold_of_finished_oneSpender :
    ((AvalanchePoll.new threeOfFive.alpha fiveVdrs).run
      [(⟨1⟩, [⟨3⟩]), (⟨2⟩, [⟨3⟩]), (⟨3⟩, [⟨3⟩])]).finished .ids = true ∧
    ∀ more, ∃ current completed,
      oneSpender.collectVotes .ids .ids ((AvalanchePoll.new threeOfFive.alpha fiveVdrs).run
        [(⟨1⟩, [⟨3⟩]), (⟨2⟩, [⟨3⟩]), (⟨3⟩, [⟨3⟩])]).result = .ok current ∧
      oneSpender.collectVotes .ids .ids (((AvalanchePoll.new threeOfFive.alpha fiveVdrs).run
        [(⟨1⟩, [⟨3⟩]), (⟨2⟩, [⟨3⟩]), (⟨3⟩, [⟨3⟩])]).run more).result = .ok completed ∧
      current.metThreshold = completed.metThreshold := by
  have hfinished : ((new threeOfFive.alpha fiveVdrs).run
      [(⟨1⟩, [⟨3⟩]), (⟨2⟩, [⟨3⟩]), (⟨3⟩, [⟨3⟩])]).finished .ids = true := by decide +kernel
  have hiff := metThreshold_of_finished sorted_oneSpender (by decide)
    (show fiveVdrs.len ≤ 64 by decide) rfl hfinished
  refine ⟨hfinished, fun more => hiff.mpr (fun t _ h => .inl ?_) more .ids .ids .ids .ids⟩
  rw [unopposed_oneSpender]
  exact h

/-- Three of the validators vote for vertex 1, one of them for vertex 2 as well; one has no
    vote. -/
def oneForBoth : List (NodeID × List ID) :=
  [(⟨1⟩, [⟨1⟩]), (⟨2⟩, [⟨1⟩]), (⟨3⟩, [⟨1⟩, ⟨2⟩]), (⟨4⟩, [])]

theorem observed_oneForBoth :
    (init twoSpenders threeOfFive {⟨9⟩} genesisAccepted (fun _ => .processing) .ids >>=
      (·.run [.add .ids ⟨1⟩, .add .ids ⟨2⟩])).toOption.map (fun ta =>
        ((ta.collectVotes .ids .ids
          ((new threeOfFive.alpha fiveVdrs).run oneForBoth).result).toOption.map
            fun b => decide (⟨11⟩ ∈ b.metThreshold),
        (ta.collectVotes .ids .ids ((new threeOfFive.alpha fiveVdrs).run
          (oneForBoth ++ [(⟨5⟩, [⟨1⟩])])).result).toOption.map
            fun b => decide (⟨11⟩ ∈ b.metThreshold))) =
      some (some false, some true) := by
  decide +kernel

/-- The last response gives a transaction its majority, after the poll was finished. -/
theorem exists_finished_not_settled : ∃ ta₀ ta current completed,
      init twoSpenders threeOfFive {⟨9⟩} genesisAccepted (fun _ => .processing) .ids = .ok ta₀ ∧
      ta₀.run [.add .ids ⟨1⟩, .add .ids ⟨2⟩] = .ok ta ∧
      (fiveVdrs.len : Int) = threeOfFive.k ∧
      ((AvalanchePoll.new threeOfFive.alpha fiveVdrs).run oneForBoth).finished .ids = true ∧
      ta.collectVotes .ids .ids
        ((AvalanchePoll.new threeOfFive.alpha fiveVdrs).run oneForBoth).result = .ok current ∧
      ta.collectVotes .ids .ids ((AvalanchePoll.new threeOfFive.alpha fiveVdrs).run
        (oneForBoth ++ [(⟨5⟩, [⟨1⟩])])).result = .ok completed ∧
      current.metThreshold ≠ completed.metThreshold := by
  obtain ⟨ta, hta, hobs⟩ := Except.exists_of_observed observed_oneForBoth
  obtain ⟨ta₀, hinit, hrun⟩ := Except.bind_eq_ok.mp hta
  obtain ⟨hcurrent, hcompleted⟩ := Prod.mk.inj hobs
  obtain ⟨current, hpoll, hnot⟩ := Except.exists_of_observed hcurrent
  obtain ⟨completed, hpoll', hmet⟩ := Except.exists_of_observed hcompleted
  refine ⟨ta₀, ta, current, completed, hinit, hrun, by decide, by decide +kernel, hpoll, hpoll',
    fun heq => ?_⟩
  rw [heq, decide_eq_false_iff_not] at hnot
  exact hnot (of_decide_eq_true hmet)

end Avalanche.Topological

end SavannahNode
