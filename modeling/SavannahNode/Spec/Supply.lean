import Mathlib.Algebra.Order.BigOperators.Group.List
import Mathlib.Algebra.Order.Group.Nat
import SavannahNode.Spec.StakerInvariant

/-!
# The supply

A staker's reward is added to the supply when the staker becomes current. It is paid when the
staker leaves with a commit, and taken from the supply again when it leaves with an abort.

## Key results

* `Ledger.Supplied` — the supply, by the stakers that are current and those that were rewarded.
* `supply_of_run` — for every run, with the UTXOs of each reward.
* `exists_reward_overpaid` — a validator of the genesis that takes more than the whole reward.
-/

namespace SavannahNode.PlatformVM

open Ledger List

/-- The rewards of some stakers. -/
def rewardsOf (stakers : List Staker) : Nat := (stakers.map (·.potentialReward)).sum

theorem rewardsOf_cons (s : Staker) (l : List Staker) :
    rewardsOf (s :: l) = s.potentialReward + rewardsOf l := rfl

theorem rewardsOf_append (l l' : List Staker) : rewardsOf (l ++ l') = rewardsOf l + rewardsOf l' := by
  rw [rewardsOf, map_append, sum_append]
  rfl

theorem rewardsOf_perm {l l' : List Staker} (h : l.Perm l') : rewardsOf l = rewardsOf l' :=
  (h.map _).sum_eq

/-- Stakers without a reward can be left out. -/
theorem rewardsOf_filter {p : Staker → Bool} {l : List Staker}
    (h : ∀ s ∈ l, p s = false → s.potentialReward = 0) : rewardsOf (l.filter p) = rewardsOf l := by
  induction l with
  | nil => rfl
  | cons s l ih =>
    have hl := ih fun s hs => h s (mem_cons_of_mem _ hs)
    cases hp : p s with
    | true => rw [filter_cons_of_pos hp, rewardsOf_cons, rewardsOf_cons, hl]
    | false =>
      rw [filter_cons_of_neg (by rw [hp]; exact Bool.false_ne_true), rewardsOf_cons, hl,
        h s mem_cons_self hp, Nat.zero_add]

theorem potentialReward_le_rewardsOf {s : Staker} {l : List Staker} (h : s ∈ l) :
    s.potentialReward ≤ rewardsOf l :=
  single_le_sum (fun _ _ => Nat.zero_le _) _ (mem_map_of_mem h)

/-! ## The stakers after an advance of the time -/

/-- The current stakers after an advance of the time, up to their order. -/
theorem Chain.Periods.perm_advance {c : Chain} {t : Time} {moved : List Staker} {supply : Nat}
    {current pending : Stakers} (h : c.Periods) (hle : ∀ s ∈ c.current.stakers, t ≤ s.nextTime)
    (hm : Moves c t moved supply current pending) :
    current.stakers.Perm
      (moved ++ c.current.stakers.filter (· ∉ currentValidatorsToRemove c t)) := by
  have hlacks := fun x (hx : x ∈ moved) => h.lacks_movedStakers hm.becomes hx
  refine hm.current_coherent.perm_stakers (nodup_append.mpr
    ⟨(h.nodup_movedStakers hm.becomes).of_map, h.current.nodup.filter _, ?_⟩) fun x => ?_
  · rintro x hx y hy rfl
    exact hlacks x hx x (mem_of_mem_filter hy) rfl
  · have hdel : c.current.IsDelegator x → x ∉ currentValidatorsToRemove c t := fun hd hrem =>
      h.current.exclusive ((h.mem_removedStakers hle).mp hrem).1 hd
    rw [hm.current_coherent.mem_stakers, hm.current_validator, hm.current_delegator, mem_append,
      mem_filter, h.current.mem_stakers, decide_eq_true_eq]
    by_cases hp : x.priority = primaryNetworkDelegatorCurrentPriority
    · tauto
    · tauto

/-! ## The invariant -/

namespace Ledger

/-- The supply, by the stakers that are current and those that were rewarded. -/
def Supplied (initialSupply : Nat) (l : Ledger) : Prop :=
  l.chain.currentSupply = initialSupply + rewardsOf l.chain.current.stakers + rewardsOf l.rewarded

namespace Supplied

variable {b : Backend} {T : Set Tx} {l l' : Ledger} {stx : Tx} {n : Nat}

theorem of_bare (hl' : l'.bare = l.bare) (h : l.Supplied n) : l'.Supplied n := by
  show l'.bare.Supplied n
  rw [hl']
  exact h

theorem advance (hv : l.Valid b.ctx T) (h : l.Supplied n) {t : Time} {moved : List Staker}
    {supply : Nat} {current pending : Stakers}
    (hchange : ∃ t', getNextStakerChangeTime l.chain = some t' ∧ t ≤ t')
    (hmoves : Moves l.chain t moved supply current pending) :
    (l.advance stx t supply current pending).Supplied n := by
  obtain ⟨t', ht', hle⟩ := hchange
  have hle' := fun s hs => hle.trans ((hv.periods.le_nextTime ht').1 s hs)
  have hperm := rewardsOf_perm (hv.periods.perm_advance hle' hmoves)
  -- subnet validators leave without a reward
  have hkept := rewardsOf_filter (l := l.chain.current.stakers)
    (p := (decide <| · ∉ currentValidatorsToRemove l.chain t)) fun s hs hrem => by
      rw [decide_eq_false_iff_not, not_not] at hrem
      exact (hv.staked.current_reward s hs).2 ((hv.periods.mem_removedStakers hle').mp hrem).2.1
  rw [rewardsOf_append, hkept] at hperm
  have hadded : supply = l.chain.currentSupply + rewardsOf moved := hmoves.supply
  show supply = n + rewardsOf current.stakers + rewardsOf l.rewarded
  rw [hperm, hadded, h]
  omega

/-- One transaction. -/
theorem step (hv : l.Valid b.ctx T) (h : l.Supplied n) {status : TxStatus}
    (hstep : Step b l stx status l') : l'.Supplied n := by
  cases hstep with
  | spend _ hs hl' => exact .of_bare hl' h
  | enlist hs hpending hl' => exact .of_bare hl' h
  | advance time hutx hafter hchange hmoves hl' =>
    exact .of_bare hl' (h.advance hv hchange hmoves)
  | @retire _ _ s rest t current rewards hutx hfirst hend ht hle hretires hl' =>
    have hperm : rewardsOf l.chain.current.stakers = s.potentialReward + rewardsOf current.stakers := by
      have hcoherent := hv.periods.current
      rw [← rewardsOf_cons]
      apply rewardsOf_perm
      rcases (hv.retires_role hfirst ht hretires).2 with ⟨hval, rfl⟩ | ⟨hdel, rfl⟩
      · exact hcoherent.perm_cons (hcoherent.deleteValidator hval)
          (hcoherent.mem_stakers.mpr (.inl hval)) fun _ => hcoherent.mem_deleteValidator hval
      · exact hcoherent.perm_cons (hcoherent.deleteDelegator hdel)
          (hcoherent.mem_stakers.mpr (.inr hdel)) fun _ => hcoherent.mem_deleteDelegator hdel
    refine .of_bare hl' ?_
    cases status with
    | committed =>
      show l.chain.currentSupply = n + rewardsOf current.stakers + rewardsOf (l.rewarded ++ [s])
      rw [rewardsOf_append, rewardsOf_cons, h]
      show _ = _ + (_ + (_ + 0))
      omega
    | aborted =>
      show l.chain.currentSupply - s.potentialReward =
        n + rewardsOf current.stakers + rewardsOf l.rewarded
      rw [h]
      omega

end Supplied

end Ledger

/-! ## The UTXOs of a reward -/

/-- The amount of some UTXOs. -/
def amountOfUTXOs (utxos : List UTXO) : Nat := (utxos.map (·.out.amount)).sum

theorem amountOfUTXOs_append (l l' : List UTXO) :
    amountOfUTXOs (l ++ l') = amountOfUTXOs l + amountOfUTXOs l' := by
  rw [amountOfUTXOs, map_append, sum_append]
  rfl

theorem amountOfUTXOs_reward (ctx : Context) (txID : ID) (outputIndex amount : Nat)
    (owner : OutputOwners) :
    amountOfUTXOs (rewardUTXOs ctx txID outputIndex amount owner) = amount := by
  rw [rewardUTXOs]
  split
  · exact Nat.add_zero _
  rename_i hpos
  exact (Nat.eq_zero_of_not_pos hpos).symm

/-- The delegator gets at most the whole reward. -/
theorem delegatorReward_le {shares r : Nat} (hshares : shares ≤ percentDenominator) :
    delegatorReward shares r ≤ r := by
  have hpart : (percentDenominator + 2 ^ 64 - shares) % 2 ^ 64 ≤ percentDenominator := by
    rw [show percentDenominator + 2 ^ 64 - shares = percentDenominator - shares + 2 ^ 64 by omega,
      Nat.add_mod_right]
    exact (Nat.mod_le _ _).trans (Nat.sub_le _ _)
  rw [delegatorReward]
  generalize (percentDenominator + 2 ^ 64 - shares) % 2 ^ 64 = part at hpart ⊢
  split
  · rename_i optimisticReward hmul
    rw [mul64_eq_some hmul]
    refine Nat.div_le_of_le_mul ?_
    exact Nat.mul_le_mul_right r hpart
  calc part * (r / percentDenominator) % 2 ^ 64 ≤ part * (r / percentDenominator) := Nat.mod_le _ _
    _ ≤ percentDenominator * (r / percentDenominator) := Nat.mul_le_mul_right _ hpart
    _ ≤ r := Nat.mul_div_le _ _

variable {b : Backend} {l : Ledger} {T : Set Tx}

/-- Both parts are `uint64`. -/
theorem delegatorReward_lt (shares r : Nat) : delegatorReward shares r < 2 ^ 64 := by
  rw [delegatorReward]
  split
  · rename_i optimisticReward hmul
    rw [mul64] at hmul
    split at hmul
    · cases hmul
    rename_i hfits
    cases hmul
    refine lt_of_le_of_lt (Nat.div_le_self _ _) (Nat.lt_succ_of_le ?_)
    rcases Nat.eq_zero_or_pos r with rfl | hpos
    · exact Nat.zero_le _
    · refine (Nat.le_div_iff_mul_le hpos).mp (not_lt.mp fun hgt => hfits ⟨hpos.ne', hgt⟩)
  · exact Nat.mod_lt _ (Nat.two_pow_pos 64)

/-- The part of the reward that a delegator gets is at most the reward. -/
def Chain.Splits (c : Chain) (s : Staker) (utx : UnsignedTx) : Prop :=
  ∀ tx v vtx vdrTx, utx = .addDelegator tx →
    c.current.validator (primaryNetworkID, tx.validator.nodeID) = some v →
    c.tx v.txID = some vtx → vtx.1.unsigned = .addValidator vdrTx →
    delegatorReward vdrTx.shares s.potentialReward ≤ s.potentialReward

/-- The reward is paid in full, to one owner or to two, if the delegator's part is at most the
    reward. Otherwise the validator's part wraps around. -/
theorem Ledger.Retires.amount_iff (hv : l.Valid b.ctx T)
    {s : Staker} {utx : UnsignedTx} {current : Stakers} {rewards : List UTXO}
    (hs : s ∈ l.chain.current.stakers) (h : Retires b.ctx l.chain s utx current rewards) :
    amountOfUTXOs rewards = s.potentialReward ↔ l.chain.Splits s utx := by
  cases h with
  | validator tx htx =>
    refine iff_of_true (amountOfUTXOs_reward ..) fun _ _ _ _ htx' => ?_
    rw [htx] at htx'
    cases htx'
  | delegator tx v vtx vdrTx htx hvdr hvtx hvdrTx =>
    have hlt := (hv.staked.current_reward s hs).1
    have hpart := delegatorReward_lt vdrTx.shares s.potentialReward
    have hsplits : l.chain.Splits s utx ↔
        delegatorReward vdrTx.shares s.potentialReward ≤ s.potentialReward := by
      refine ⟨fun h => h tx v vtx vdrTx htx hvdr hvtx hvdrTx, fun hle tx' v' vtx' vdrTx' h1 h2 h3 h4 => ?_⟩
      rw [htx] at h1
      cases h1
      rw [hvdr] at h2
      cases h2
      rw [hvtx] at h3
      cases h3
      rw [hvdrTx] at h4
      cases h4
      exact hle
    rw [hsplits, amountOfUTXOs_append, amountOfUTXOs_reward, amountOfUTXOs_reward]
    generalize delegatorReward vdrTx.shares s.potentialReward = part at hpart ⊢
    omega

/-! ## Shares -/

/-- No validator takes more than the whole reward of its delegators. -/
def Genesis.Fair (g : Genesis) : Prop := ∀ stx ∈ g.validators ++ g.chains, ∀ tx,
  stx.unsigned = .addValidator tx → tx.shares ≤ percentDenominator

def Ledger.Fair (l : Ledger) : Prop := ∀ id t, l.chain.tx id = some t → ∀ tx,
  t.1.unsigned = .addValidator tx → tx.shares ≤ percentDenominator

theorem Ledger.Fair.step {l l' : Ledger} {stx : Tx} {status : TxStatus} (h : l.Fair)
    (hstep : Step b l stx status l') : l'.Fair := by
  refine hstep.recorded (P := fun _ utx => ∀ tx, utx = .addValidator tx →
    tx.shares ≤ percentDenominator) h fun tx htx => ?_
  rcases hstep.spends_or with hs | ⟨_, hutx⟩ | ⟨_, hutx⟩
  · exact hs.shares tx htx
  · cases hutx.symm.trans htx
  · cases hutx.symm.trans htx

theorem Ledger.Fair.splits (h : l.Fair) (s : Staker) (utx : UnsignedTx) : l.chain.Splits s utx :=
  fun _ v vtx vdrTx _ _ hvtx hvdrTx => delegatorReward_le (h v.txID vtx hvtx vdrTx hvdrTx)

/-- A step of a reward retires the first staker. -/
theorem Ledger.Step.of_reward {l l' : Ledger} {stx : Tx} {status : TxStatus} {txID : ID}
    (h : Step b l stx status l') (hutx : stx.unsigned = .rewardValidator txID) :
    ∃ s rest t current rewards, l.chain.current.stakers = s :: rest ∧
      l.chain.tx s.txID = some t ∧ Retires b.ctx l.chain s t.1.unsigned current rewards ∧
      l'.chain.utxo = (l.chain.addUTXOs (paid b.ctx s t.1.unsigned rewards status)).utxo ∧
      l'.chain.currentSupply = supplyAfter l.chain s status := by
  have hreward : stx.unsigned.rewards ≠ none := by
    rw [hutx]
    exact Option.some_ne_none _
  cases h with
  | spend _ hs _ => exact absurd hs.no_reward hreward
  | enlist hs _ _ => exact absurd hs.no_reward hreward
  | advance _ hutx' _ _ _ _ =>
    rw [hutx] at hutx'
    cases hutx'
  | retire _ _ hfirst _ ht _ hretires hl' =>
    exact ⟨_, _, _, _, _, hfirst, ht, hretires, congrArg (fun l => l.chain.utxo) hl',
      congrArg (fun l => l.chain.currentSupply) hl'⟩

/-! ## Every run -/

/-- The supply in every state a branch reaches from the genesis, the UTXOs of every reward, and
    that a reward never exceeds the supply. The UTXOs of a reward are new ones; they total the
    reward exactly if the part of a delegator is at most the reward, as it is where the genesis
    is fair. -/
theorem supply_of_run {b : Backend} {T : Set Tx} {g : Genesis} {validators : Manager}
    {genesisBlk : Block} {s : State} {inbound : ID → UTXOID → Option UTXO} {ops : List BranchOp}
    {br : Branch} (hT : Set.InjOn Tx.id T) (hboot : b.bootstrapped = true)
    (hmin : 0 < b.config.minStakeDuration) (hg : g.WellFormed b.ctx T)
    (hgenesis : (State.empty validators).syncGenesis b genesisBlk g = .ok s)
    (hops : ∀ op ∈ ops, ∀ stx ∈ op.tx, stx ∈ T)
    (hrun : (Branch.genesis s inbound).run b ops = .ok br) :
    br.chain.currentSupply =
      g.initialSupply + rewardsOf br.chain.current.stakers + rewardsOf br.rewarded ∧
    (∀ env parentID stx txID p, stx.unsigned = .rewardValidator txID →
      proposalTx b env parentID (some br.chain) stx = .ok p →
      ∃ x rest t rewards, br.chain.current.stakers = x :: rest ∧ br.chain.tx x.txID = some t ∧
        ((refund b.ctx x.txID t.1.unsigned ++ rewards).map UTXO.utxoID).Nodup ∧
        (∀ u ∈ refund b.ctx x.txID t.1.unsigned ++ rewards, br.chain.utxo u.utxoID = none) ∧
        (amountOfUTXOs rewards = x.potentialReward ↔ br.chain.Splits x t.1.unsigned) ∧
        (g.Fair → amountOfUTXOs rewards = x.potentialReward) ∧
        (p.onCommit.read br.chain).utxo =
          (br.chain.addUTXOs (refund b.ctx x.txID t.1.unsigned ++ rewards)).utxo ∧
        (p.onCommit.read br.chain).currentSupply = br.chain.currentSupply ∧
        (p.onAbort.read br.chain).utxo =
          (br.chain.addUTXOs (refund b.ctx x.txID t.1.unsigned)).utxo ∧
        (p.onAbort.read br.chain).currentSupply = br.chain.currentSupply - x.potentialReward) ∧
    ∀ x ∈ br.chain.current.stakers, sub64 br.chain.currentSupply x.potentialReward =
        some (br.chain.currentSupply - x.potentialReward) := by
  have hloaded := hg.loaded hT hgenesis
  obtain ⟨produced, hv, hsupplied, hfair⟩ := Branch.run_rule
    (I := fun l => l.Supplied g.initialSupply ∧ (g.Fair → l.Fair)) hT hboot hmin
    (fun l l' stx status hv hI _ hstep => ⟨hI.1.step hv hstep, fun hg => (hI.2 hg).step hstep⟩)
    (fun l chainID utxo hI => hI) (hg.valid hT hgenesis inbound)
    ⟨hloaded.supply, fun hg id t ht => hg t.1 (hloaded.recorded id t ht).2.1⟩ hops hrun
  have hsupply : br.chain.currentSupply =
      g.initialSupply + rewardsOf br.chain.current.stakers + rewardsOf br.rewarded := hsupplied
  refine ⟨hsupply, fun env parentID stx txID p hutx hp => ?_, fun x hx => ?_⟩
  · rw [proposalTx, hutx] at hp
    have hstep := rewardValidatorTx_step hv hutx hp
    obtain ⟨l₁, hreads₁, hstep₁⟩ := hstep.commit
    obtain ⟨l₂, hreads₂, hstep₂⟩ := hstep.abort
    obtain ⟨x, rest, t, current, rewards, hfirst, ht, hretires, hutxo₁, hsupply₁⟩ :=
      hstep₁.of_reward hutx
    obtain ⟨x', rest', t', -, rewards', hfirst', ht', -, hutxo₂, hsupply₂⟩ := hstep₂.of_reward hutx
    -- both outcomes retire the first staker
    rw [hfirst] at hfirst'
    cases hfirst'
    rw [ht] at ht'
    cases ht'
    have hread₁ := hreads₁.read_eq
    have hread₂ := hreads₂.read_eq
    rw [← hread₁] at hutxo₁ hsupply₁
    rw [← hread₂] at hutxo₂ hsupply₂
    have hamount := hretires.amount_iff hv (by rw [hfirst]; exact mem_cons_self)
    refine ⟨x, rest, t, rewards, hfirst, ht, (hretires.paid_ids (.inr rfl)).1, fun u hu => ?_, hamount,
      fun hg => hamount.mpr ((hfair hg).splits x _), hutxo₁, hsupply₁, hutxo₂, hsupply₂⟩
    -- a UTXO that is there has been produced
    by_contra hsome
    obtain ⟨w, hw⟩ := Option.ne_none_iff_exists'.mp hsome
    exact hv.paid_fresh hfirst ht hretires (.inr rfl) u hu (hv.records.live _ w hw).2
  · have hle := potentialReward_le_rewardsOf hx
    rw [sub64, if_neg (by omega)]

open SmallNetwork in
/-- The delegator's reward of 3 is split between two owners. -/
theorem supply_of_run_delegation : ∃ br p, after genesis (delegation 300) = .ok br ∧
    proposalTx backend env genesisBlk.id (some br.chain) rewardDelegatorStx = .ok p ∧
    br.chain.currentSupply = 50000 + rewardsOf br.chain.current.stakers + rewardsOf br.rewarded ∧
    ∃ x t rewards, br.chain.current.stakers.head? = some x ∧ x.potentialReward = 3 ∧
      amountOfUTXOs rewards = 3 ∧ br.chain.tx x.txID = some t ∧ (p.onCommit.read br.chain).utxo =
        (br.chain.addUTXOs (refund backend.ctx x.txID t.1.unsigned ++ rewards)).utxo := by
  have hobserved : (after genesis (delegation 300)).toOption.map (fun br =>
      (br.chain.current.stakers.head?.map (·.potentialReward),
        (proposalTx backend env genesisBlk.id (some br.chain) rewardDelegatorStx).isOk)) =
      some (some 3, true) := by decide +kernel
  obtain ⟨br, hbr, heq⟩ := Except.exists_of_observed hobserved
  obtain ⟨hthree, hok⟩ := Prod.mk.inj heq
  obtain ⟨s, hs, hrun⟩ := Except.bind_eq_ok.mp hbr
  cases hp : proposalTx backend env genesisBlk.id (some br.chain) rewardDelegatorStx with
  | error e =>
    rw [hp] at hok
    cases hok
  | ok p =>
    obtain ⟨hsupply, hreward, -⟩ := supply_of_run txs_injOn rfl (by decide) genesis_wellFormed hs
      delegation_txs hrun
    obtain ⟨x, rest, t, rewards, hfirst, ht, -, -, -, hamount, hutxo, -⟩ :=
      hreward env genesisBlk.id rewardDelegatorStx _ p rfl hp
    rw [hfirst] at hthree
    have hx : x.potentialReward = 3 := Option.some.inj hthree
    refine ⟨br, p, hbr, hp, hsupply, x, t, rewards, by rw [hfirst]; rfl, hx, ?_, ht, hutxo⟩
    rw [← hx]
    refine hamount fun stx hstx tx htx => ?_
    obtain rfl := mem_singleton.mp hstx
    cases htx
    decide

open SmallNetwork in
/-- A validator of the genesis takes twice the reward of its delegators: for a reward of 1 the
    delegator gets 18446744073708, and the validator, with a `uint64`, the difference. -/
theorem exists_reward_overpaid : ∃ br p, after overcharging (delegation 100) = .ok br ∧
    br.chain.current.stakers.head?.map (·.potentialReward) = some 1 ∧
    proposalTx backend env genesisBlk.id (some br.chain) rewardDelegatorStx = .ok p ∧
    ((p.onCommit.read br.chain).utxo ⟨⟨4⟩, 2⟩).map (·.out.amount) = some 18446744073708 ∧
    ((p.onCommit.read br.chain).utxo ⟨⟨4⟩, 3⟩).map (·.out.amount) =
      some (2 ^ 64 + 1 - 18446744073708) := by
  have hobserved : (after overcharging (delegation 100)).toOption.map (fun br =>
      (br.chain.current.stakers.head?.map (·.potentialReward),
        (proposalTx backend env genesisBlk.id (some br.chain) rewardDelegatorStx).toOption.map
          fun p => [2, 3].map fun i =>
            ((p.onCommit.read br.chain).utxo ⟨⟨4⟩, i⟩).map (·.out.amount))) =
      some (some 1, some [some 18446744073708, some (2 ^ 64 + 1 - 18446744073708)]) := by
    decide +kernel
  obtain ⟨br, hbr, heq⟩ := Except.exists_of_observed hobserved
  obtain ⟨hone, hrewards⟩ := Prod.mk.inj heq
  obtain ⟨p, hp, hamounts⟩ := Except.exists_of_observed hrewards
  obtain ⟨hfirst, hsecond⟩ := cons.inj hamounts
  exact ⟨br, p, hbr, hone, hp, hfirst, (cons.inj hsecond).1⟩

end SavannahNode.PlatformVM
