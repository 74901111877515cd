import SavannahNode.Native.Mempool
import SavannahNode.Spec.Supply

/-!
# The builder and the verifier

The builder looks for the first staker of the primary network, the verifier for the first
staker. They agree: a subnet validator that has ended is gone as soon as the time is its end,
so nothing stands before a staker that is due. If none is due, the next change of the staker
sets is in the future and an advance of the time to it is valid.

## Key results

* `Ledger.Valid.head_of_reward` — the staker the builder finds is the first one.
* `rewardValidatorTx_ok`, `advanceTimeTx_ok` — the transactions the builder makes are executed.
* `buildBlock_of_run` — for every state a branch reaches, every mempool and every local time.
-/

namespace SavannahNode

open Except List

/-! ## Times -/

namespace Time

/-- The representative of a sum does not depend on how one summand was reduced. -/
theorem bmod_sub_emod (x y : Int) (m : Nat) :
    Int.bmod ((Int.bmod x m - y) % m + y) m = Int.bmod x m := by
  rw [Int.emod_add_bmod, Int.sub_add_cancel, Int.bmod_bmod]

/-- The seconds of a time that comes from seconds. -/
theorem unix_unixSeconds_unix (n : Nat) : unix (unixSeconds (unix n)) = unix n := by
  have hdiv : unix n / second = Int.bmod (n + unixToInternal) (2 ^ 64) :=
    Int.mul_ediv_cancel _ (by decide)
  have hcast : ((unixSeconds (unix n) : Nat) : Int) =
      (Int.bmod (n + unixToInternal) (2 ^ 64) - unixToInternal) % (2 ^ 64 : Nat) := by
    rw [unixSeconds, hdiv, Int.toNat_of_nonneg (Int.emod_nonneg _ (by decide))]
    rfl
  rw [unix, hcast, bmod_sub_emod]
  rfl

/-- The largest time that comes from seconds. -/
theorem unix_le (n : Nat) : unix n ≤ (2 ^ 63 - 1) * second := by
  have hlt := Int.bmod_lt (x := n + unixToInternal) (m := 2 ^ 64) (by decide)
  have hsecond : (0 : Int) ≤ second := by decide
  refine Int.mul_le_mul_of_nonneg_right ?_ hsecond
  omega

/-- Adding a duration to a time does not pass below a time that comes from seconds. -/
theorem unix_le_add {n : Nat} {t : Time} {d : Duration} (hd : 0 ≤ d) (h : unix n ≤ t) :
    unix n ≤ add t d := by
  have hmax := unix_le n
  have hrest := Int.mul_ediv_add_emod (t + d) second
  have hnonneg := Int.emod_nonneg (t + d) (show second ≠ 0 by decide)
  rw [add]
  rcases le_total ((t + d) / second) (2 ^ 63 - 1) with hle | hle
  · rw [min_eq_left hle, Int.mul_comm, hrest]
    exact h.trans (Int.le_add_of_nonneg_right hd)
  rw [min_eq_right hle]
  exact hmax.trans (Int.le_add_of_nonneg_right hnonneg)

end Time

namespace PlatformVM

open Ledger

/-! ## The IDs of stakers -/

/-- A transaction with a stake does not have the empty ID. -/
def Ledger.Named (l : Ledger) : Prop :=
  ∀ id t, l.chain.tx id = some t → t.1.unsigned.stake ≠ [] → id ≠ ID.empty

variable {b : Backend}

/-- One transaction. -/
theorem Ledger.Named.step {l l' : Ledger} {stx : Tx} {status : TxStatus} (h : l.Named)
    (hstep : Step b l stx status l') : l'.Named := by
  refine hstep.recorded (P := fun id utx => utx.stake ≠ [] → id ≠ ID.empty) h fun hstake => ?_
  rcases hstep.spends_or with hs | ⟨_, hutx⟩ | ⟨_, hutx⟩
  · exact hs.named (made_ne_nil_of_stake hstake)
  · exact absurd (congrArg UnsignedTx.stake hutx) hstake
  · exact absurd (congrArg UnsignedTx.stake hutx) hstake

theorem Genesis.WellFormed.named {T : Set Tx} {g : Genesis} {validators : Manager}
    {genesisBlk : Block} {s : State} (hT : Set.InjOn Tx.id T) (hg : g.WellFormed b.ctx T)
    (hgenesis : (State.empty validators).syncGenesis b genesisBlk g = .ok s)
    (inbound : ID → UTXOID → Option UTXO) (produced : List UTXOID) :
    ((Branch.genesis s inbound).ledger produced).Named := by
  intro id t ht _
  obtain ⟨hid, hmem, -⟩ := (hg.loaded hT hgenesis).recorded id t ht
  rw [← hid]
  exact (hg.txs t.1 hmem).2.1

/-! ## Rewards -/

namespace Ledger.Valid

variable {b : Backend} {T : Set Tx} {l : Ledger} {txID : ID}

/-- The staker that is due is the first one: a subnet validator before it would have ended. -/
theorem head_of_reward (h : l.Valid b.ctx T)
    (hnext : getNextStakerToReward l.chain = .ok (txID, true)) :
    ∃ s rest, l.chain.current.stakers = s :: rest ∧ s.txID = txID ∧
      s.endTime = l.chain.timestamp ∧ s.subnetID = primaryNetworkID := by
  rw [getNextStakerToReward] at hnext
  split at hnext
  · cases hnext
  split at hnext
  · rename_i s hfind
    injection hnext with hnext
    obtain ⟨hid, hdue⟩ := Prod.mk.inj hnext
    have hend : l.chain.timestamp = s.endTime := of_decide_eq_true hdue
    obtain ⟨hprimary, before, rest, hsplit, hbefore⟩ := find?_eq_some_iff_append.mp hfind
    have hmem : s ∈ l.chain.current.stakers := by
      rw [hsplit]
      exact mem_append_right _ mem_cons_self
    cases before with
    | nil =>
      refine ⟨s, rest, hsplit, hid, hend.symm, ?_⟩
      rcases h.periods.current_priority hmem with ⟨hp, -, -⟩ | ⟨hsubnet, -⟩
      · rw [hp] at hprimary
        exact absurd hprimary (by decide)
      · exact hsubnet
    | cons x before =>
      have hascending := h.periods.current.ascending
      have hx : x ∈ l.chain.current.stakers := by
        rw [hsplit]
        exact mem_cons_self
      rw [hsplit] at hascending
      have hle : x.nextTime ≤ s.nextTime :=
        hascending.head_le (mem_append_right (x :: before) mem_cons_self)
      rw [(h.periods.current_times x hx).1, (h.periods.current_times s hmem).1, ← hend] at hle
      -- `x` is not of the primary network
      rcases h.periods.current_priority hx with ⟨-, hsubnet, hval⟩ | ⟨-, hp⟩
      · rcases h.periods.current_validator x hval with ⟨hprimary', -⟩ | ⟨-, -, hlt⟩
        · exact absurd hprimary' hsubnet
        · exact absurd hlt (not_lt.mpr hle)
      have hno := hbefore x mem_cons_self
      simp [hp] at hno
  · cases hnext

end Ledger.Valid

theorem addReward_ok (ctx : Context) (d : Diff) (txID : ID) (outputIndex amount : Nat)
    {owner : OutputOwners} (howner : owner.verify = .ok ()) :
    ∃ d', addReward ctx d txID outputIndex amount owner = .ok d' := by
  rw [addReward]
  split
  · rw [Fx.createOutput, howner]
    exact ⟨_, rfl⟩
  · exact ⟨_, rfl⟩

theorem prefersReward_ok {env : Env} (huptimes : ∀ nodeID t, (env.uptimes nodeID t).isSome)
    (nodeID : NodeID) (startTime : Time) :
    ∃ prefersCommit, prefersReward b env nodeID startTime = .ok prefersCommit := by
  obtain ⟨uptime, huptime⟩ := Option.isSome_iff_exists.mp (huptimes nodeID startTime)
  rw [prefersReward, huptime]
  exact ⟨_, rfl⟩

section Reward

variable {b : Backend} {T : Set Tx} {l : Ledger} {s : Staker} {t : Tx × TxStatus} {env : Env}

/-- The reward of a delegator: its validator is found, and both owners are valid. -/
theorem rewardDelegator_ok (hv : l.Valid b.ctx T) (hmem : s ∈ l.chain.current.stakers)
    (ht : l.chain.tx s.txID = some t) {tx : AddDelegatorTx} (htx : t.1.unsigned = .addDelegator tx)
    (howner : tx.rewardsOwner.verify = .ok ()) (huptimes : ∀ nodeID t, (env.uptimes nodeID t).isSome)
    (onCommit onAbort : Diff) :
    ∃ p, rewardDelegator b env l.chain s.txID onCommit onAbort s tx = .ok p := by
  obtain ⟨v, hvdr, hval⟩ := hv.rewardDelegator_validator hmem ht htx
  obtain ⟨vt, hvt, hof⟩ := hv.staked.validator v (.inl hval)
  have hslot : v.subnetID = primaryNetworkID :=
    congrArg Prod.fst (hv.periods.current.validator_eq_some.mp hvdr).2
  rw [rewardDelegator, bind_of_ok (ofOption_eq_ok.mpr hvdr), bind_of_ok (ofOption_eq_ok.mpr hvt)]
  generalize vt.1.unsigned = utx at hof ⊢
  cases hof with
  | primary vdrTx hs hstake =>
    obtain ⟨d1, hd1⟩ := addReward_ok b.ctx (refundStake b.ctx (onCommit.deleteCurrentDelegator s)
      s.txID tx.base.outs tx.stake) s.txID (tx.base.outs.length + tx.stake.length)
      (delegatorReward vdrTx.shares s.potentialReward) howner
    dsimp only
    rw [bind_of_ok hd1]
    obtain ⟨d2, hd2⟩ := addReward_ok b.ctx d1 s.txID (tx.base.outs.length + tx.stake.length +
      if delegatorReward vdrTx.shares s.potentialReward > 0 then 1 else 0)
      ((s.potentialReward + 2 ^ 64 - delegatorReward vdrTx.shares s.potentialReward) % 2 ^ 64)
      hstake.owner
    rw [bind_of_ok hd2]
    obtain ⟨prefersCommit, hprefers⟩ := prefersReward_ok (b := b) huptimes tx.validator.nodeID
      vdrTx.validator.startTime
    rw [hprefers]
    exact ⟨_, rfl⟩
  | subnet vdrTx hsubnet hs => exact absurd (hs.subnetID_eq.symm.trans hslot) hsubnet

/-- The transaction of the builder that rewards a staker is executed. -/
theorem rewardValidatorTx_ok {n : Nat} (hv : l.Valid b.ctx T) (hsupplied : l.Supplied n)
    (hnamed : l.Named) (hnext : getNextStakerToReward l.chain = .ok (txID, true))
    (huptimes : ∀ nodeID t, (env.uptimes nodeID t).isSome) (parentID : ID) {stx : Tx}
    (hcreds : stx.creds = []) :
    ∃ p, rewardValidatorTx b env parentID (some l.chain) stx txID = .ok p := by
  obtain ⟨s, rest, hfirst, rfl, hend, hprimary⟩ := hv.head_of_reward hnext
  have hmem : s ∈ l.chain.current.stakers := by
    rw [hfirst]
    exact mem_cons_self
  obtain ⟨t, ht, -⟩ := hv.staker_tx (.inl hmem)
  have hrole := hv.current_role hmem ht
  have hid : s.txID ≠ ID.empty := by
    apply hnamed _ t ht
    rcases hrole with ⟨-, hof⟩ | ⟨-, hof⟩
    · generalize t.1.unsigned = utx at hof ⊢
      cases hof with
      | primary tx hs hstake => exact hstake.ne_nil
      | subnet tx hsubnet hs => exact absurd (hs.subnetID_eq.symm.trans hprimary) hsubnet
    generalize t.1.unsigned = utx at hof ⊢
    cases hof with
    | delegator tx hs hstake => exact hstake.ne_nil
  have hsupply : ¬l.chain.currentSupply < s.potentialReward := by
    have hle := potentialReward_le_rewardsOf hmem
    rw [Supplied] at hsupplied
    omega
  have hhead : l.chain.current.stakers.head? = some s := by
    rw [hfirst]
    rfl
  have hsub : sub64 l.chain.currentSupply s.potentialReward =
      some (l.chain.currentSupply - s.potentialReward) := by
    rw [sub64, if_neg hsupply]
  rw [rewardValidatorTx, bind_of_ok (failIf_of_not hid),
    bind_of_ok (failIf_of_not (by rw [hcreds]; exact not_not_intro rfl)),
    bind_of_ok (ofOption_eq_ok.mpr rfl),
    bind_of_ok (ofOption_eq_ok.mpr hhead),
    bind_of_ok (failIf_of_not (not_not_intro rfl)),
    bind_of_ok (failIf_of_not (not_not_intro hend)),
    bind_of_ok (ofOption_eq_ok.mpr ht)]
  rw [bind_of_ok (ofOption_eq_ok.mpr hsub)]
  rcases hrole with ⟨-, hof⟩ | ⟨-, hof⟩
  · generalize t.1.unsigned = utx at hof ⊢
    cases hof with
    | primary tx hs hstake =>
      dsimp only
      rw [rewardValidator]
      obtain ⟨d, hd⟩ := addReward_ok b.ctx (refundStake b.ctx
        ((Diff.new parentID l.chain).deleteCurrentValidator s) s.txID tx.base.outs tx.stake) s.txID
        (tx.base.outs.length + tx.stake.length) s.potentialReward hstake.owner
      obtain ⟨prefersCommit, hprefers⟩ := prefersReward_ok (b := b) huptimes tx.validator.nodeID
        tx.validator.startTime
      rw [bind_of_ok hd, hprefers]
      exact ⟨_, rfl⟩
    | subnet tx hsubnet hs => exact absurd (hs.subnetID_eq.symm.trans hprimary) hsubnet
  · generalize hutx : t.1.unsigned = utx at hof ⊢
    cases hof with
    | delegator tx hs hstake =>
      exact rewardDelegator_ok hv hmem ht hutx hstake.owner huptimes _ _

end Reward

/-! ## Advancing the time -/

/-- The loop over the pending stakers fails only if the supply overflows. -/
theorem movePendings_ok (rewards : RewardConfig) {stakers : List Staker}
    (hpriority : ∀ s ∈ stakers, s.priority = primaryNetworkDelegatorPendingPriority ∨
      s.priority = primaryNetworkValidatorPendingPriority ∨
      s.priority = subnetValidatorPendingPriority) (m : Moved) :
    (∃ m', stakers.foldlM (movePending rewards) m = .ok m') ∨
      stakers.foldlM (movePending rewards) m = .error .overflow := by
  induction stakers generalizing m with
  | nil => exact .inl ⟨m, rfl⟩
  | cons s stakers ih =>
    rw [forall_mem_cons] at hpriority
    have hone : (∃ m', movePending rewards m s = .ok m') ∨
        movePending rewards m s = .error .overflow := by
      rw [movePending]
      generalize add64 m.currentSupply _ = supply
      split
      · cases supply with
        | none => exact .inr rfl
        | some supply => exact .inl ⟨_, rfl⟩
      split
      · cases supply with
        | none => exact .inr rfl
        | some supply => exact .inl ⟨_, rfl⟩
      split
      · exact .inl ⟨_, rfl⟩
      exact absurd hpriority.1 (by tauto)
    rw [foldlM_cons]
    rcases hone with ⟨m', hm'⟩ | herr
    · rw [hm']
      exact ih hpriority.2 m'
    · exact .inr (bind_eq_error.mpr (.inl herr))

namespace Ledger.Valid

variable {b : Backend} {T : Set Tx} {l : Ledger}

/-- The time at which a staker changes its set comes from seconds. -/
theorem nextTime_unix (h : l.Valid b.ctx T) {s : Staker}
    (hs : s ∈ l.chain.current.stakers ∨ s ∈ l.chain.pending.stakers) :
    ∃ n, s.nextTime = Time.unix n := by
  have htimes : (∃ n, s.startTime = Time.unix n) ∧ ∃ n, s.endTime = Time.unix n := by
    obtain ⟨t, -, ⟨-, hof⟩ | ⟨-, hof⟩⟩ := h.staker_tx hs
    · generalize t.1.unsigned = utx at hof
      cases hof with
      | primary tx hrep => exact ⟨⟨_, hrep.startTime_eq⟩, ⟨_, hrep.endTime_eq⟩⟩
      | subnet tx _ hrep => exact ⟨⟨_, hrep.startTime_eq⟩, ⟨_, hrep.endTime_eq⟩⟩
    generalize t.1.unsigned = utx at hof
    cases hof with
    | delegator tx hrep => exact ⟨⟨_, hrep.startTime_eq⟩, ⟨_, hrep.endTime_eq⟩⟩
  rcases hs with hs | hs
  · rw [(h.periods.current_times s hs).1]
    exact htimes.2
  rw [(h.periods.pending_times s hs).1]
  exact htimes.1

/-- The next change of the staker sets is the change of a staker. -/
theorem exists_nextTime {t : Time} (ht : getNextStakerChangeTime l.chain = some t) :
    (∃ s rest, l.chain.current.stakers = s :: rest ∧ t = s.nextTime) ∨
      ∃ s ∈ l.chain.pending.stakers, t = s.nextTime := by
  rw [getNextStakerChangeTime] at ht
  split at ht
  · rename_i s rest u rest' hs hu
    cases ht
    rw [hs, hu]
    split
    · exact .inl ⟨s, rest, rfl, rfl⟩
    · exact .inr ⟨u, mem_cons_self, rfl⟩
  · rename_i s rest hs hu
    cases ht
    exact .inl ⟨s, rest, hs, rfl⟩
  · rename_i u rest hs hu
    cases ht
    rw [hu]
    exact .inr ⟨u, mem_cons_self, rfl⟩
  · cases ht

/-- If no staker is due, the next change is in the future. -/
theorem timestamp_lt_change (h : l.Valid b.ctx T)
    (hnext : getNextStakerToReward l.chain = .ok (txID, false)) {t : Time}
    (ht : getNextStakerChangeTime l.chain = some t) : l.chain.timestamp < t := by
  rcases exists_nextTime ht with ⟨s, rest, hfirst, rfl⟩ | ⟨s, hs, rfl⟩
  · have hmem : s ∈ l.chain.current.stakers := by
      rw [hfirst]
      exact mem_cons_self
    obtain ⟨hnextTime, -, hle⟩ := h.periods.current_times s hmem
    rw [hnextTime]
    refine lt_of_le_of_ne hle fun hdue => ?_
    -- a first staker that is due is of the primary network, and the builder finds it
    rcases h.periods.current_priority hmem with ⟨-, hsubnet, hval⟩ | ⟨-, hp⟩
    · rcases h.periods.current_validator s hval with ⟨hprimary, -⟩ | ⟨-, -, hlt⟩
      · exact hsubnet hprimary
      · exact absurd hdue (ne_of_lt hlt)
    rw [getNextStakerToReward, hfirst] at hnext
    split at hnext
    · cases hnext
    rw [find?_cons_of_pos (by simpa using hp)] at hnext
    injection hnext with hnext
    exact absurd hdue (of_decide_eq_false (Prod.mk.inj hnext).2)
  · obtain ⟨hnextTime, hlt, -⟩ := h.periods.pending_times s hs
    rw [hnextTime]
    exact hlt

end Ledger.Valid

/-- The transaction of the builder that advances the time is executed. -/
theorem advanceTimeTx_ok {T : Set Tx} {l : Ledger} {env : Env} {t : Time}
    (hv : l.Valid b.ctx T) (hnext : getNextStakerToReward l.chain = .ok (txID, false))
    (htime : getNextChainTime env.clk l.chain = .ok (t, true)) (parentID : ID) {stx : Tx}
    (hcreds : stx.creds = [])
    (hoverflow : advanceTimeTx b env parentID (some l.chain) stx (Time.unixSeconds t) ≠
      .error .overflow) :
    ∃ p, advanceTimeTx b env parentID (some l.chain) stx (Time.unixSeconds t) = .ok p := by
  obtain ⟨t', hchange, htime⟩ := bind_eq_ok.mp htime
  injection htime with htime
  obtain ⟨rfl, hnow⟩ := Prod.mk.inj htime
  have hchange := ofOption_eq_ok.mp hchange
  have hnow : t' ≤ env.clk := not_lt.mp (of_decide_eq_true hnow)
  have hafter := hv.timestamp_lt_change hnext hchange
  obtain ⟨n, hn⟩ : ∃ n, t' = Time.unix n := by
    rcases Ledger.Valid.exists_nextTime hchange with ⟨s, rest, hfirst, rfl⟩ | ⟨s, hs, rfl⟩
    · refine hv.nextTime_unix (.inl ?_)
      rw [hfirst]
      exact mem_cons_self
    · exact hv.nextTime_unix (.inr hs)
  have hunix : Time.unix (Time.unixSeconds t') = t' := by
    rw [hn, Time.unix_unixSeconds_unix]
  have hsync : t' ≤ Time.add env.clk syncBound := by
    rw [hn] at hnow ⊢
    exact Time.unix_le_add (by decide) hnow
  have hpriority : ∀ s ∈ l.chain.pending.stakers.takeWhile (fun s => ¬s.startTime > t'),
      s.priority = primaryNetworkDelegatorPendingPriority ∨
        s.priority = primaryNetworkValidatorPendingPriority ∨
        s.priority = subnetValidatorPendingPriority := by
    intro s hs
    rcases hv.periods.pending.mem_stakers.mp (takeWhile_subset _ hs) with hval | hdel
    · rcases hv.periods.pending_validator s hval with ⟨-, hp⟩ | ⟨-, hp⟩
      · exact .inr (.inl hp)
      · exact .inr (.inr hp)
    · exact .inl (hv.periods.pending_delegator s hdel).2
  rw [advanceTimeTx, bind_of_ok (failIf_of_not (by rw [hcreds]; exact not_not_intro rfl))]
    at hoverflow ⊢
  rw [hunix, bind_of_ok (failIf_of_not (not_lt.mpr hsync)), bind_of_ok (ofOption_eq_ok.mpr rfl),
    bind_of_ok (failIf_of_not (not_not_intro hafter)),
    bind_of_ok (ofOption_eq_ok.mpr hchange),
    bind_of_ok (failIf_of_not (lt_irrefl t'))] at hoverflow ⊢
  rcases movePendings_ok b.config.rewardConfig hpriority _ with ⟨moved, hmoved⟩ | herror
  · rw [bind_of_ok hmoved]
    exact ⟨_, rfl⟩
  · exact absurd (bind_eq_error.mpr (.inl herror)) hoverflow

/-! ## Every run -/

/-- In every state that a branch reaches from the genesis, with every mempool and local time:
    the staker that `BuildBlock` proposes to reward is rewarded, and otherwise the next change
    of the staker sets that it proposes to advance to is advanced to, unless the rewards of the
    stakers that start overflow the supply. -/
theorem buildBlock_of_run {b : Backend} {T : Set Tx} {g : Genesis} {validators : Manager}
    {genesisBlk : Block} {s : State} {inbound : ID → UTXOID → Option UTXO} {ops : List BranchOp}
    {br : Branch} (hT : Set.InjOn Tx.id T) (hboot : b.bootstrapped = true)
    (hmin : 0 < b.config.minStakeDuration) (hg : g.WellFormed b.ctx T)
    (hgenesis : (State.empty validators).syncGenesis b genesisBlk g = .ok s)
    (hops : ∀ op ∈ ops, ∀ stx ∈ op.tx, stx ∈ T)
    (hrun : (Branch.genesis s inbound).run b ops = .ok br) (size : Tx → Nat)
    (sign : UnsignedTx → Tx) (hsign : ∀ utx, (sign utx).unsigned = utx ∧ (sign utx).creds = [])
    (reason : Time → String) (m : Mempool) (env : Env)
    (huptimes : ∀ nodeID t, (env.uptimes nodeID t).isSome) (parentID : ID) :
    (∀ txID, getNextStakerToReward br.chain = .ok (txID, true) →
      (m.hasDecisionTxs = false → (buildBlock size sign env.clk reason br.chain m).1 =
        .ok (.proposal (sign (.rewardValidator txID)))) ∧
      ∃ p, proposalTx b env parentID (some br.chain) (sign (.rewardValidator txID)) = .ok p) ∧
    ∀ txID t, getNextStakerToReward br.chain = .ok (txID, false) →
      getNextChainTime env.clk br.chain = .ok (t, true) →
      (m.hasDecisionTxs = false → (buildBlock size sign env.clk reason br.chain m).1 =
        .ok (.proposal (sign (.advanceTime (Time.unixSeconds t))))) ∧
      (proposalTx b env parentID (some br.chain) (sign (.advanceTime (Time.unixSeconds t))) ≠
        .error .overflow →
      ∃ p, proposalTx b env parentID (some br.chain) (sign (.advanceTime (Time.unixSeconds t))) =
        .ok p) := by
  have hinit : ((Branch.genesis s inbound).ledger (g.utxos.map UTXO.utxoID)).Supplied g.initialSupply :=
    (hg.loaded hT hgenesis).supply
  obtain ⟨produced, hv, hsupplied, hnamed⟩ := Branch.run_rule
    (I := fun l => l.Supplied g.initialSupply ∧ l.Named) hT hboot hmin
    (fun l l' stx status hv hI _ hstep => ⟨hI.1.step hv hstep, hI.2.step hstep⟩)
    (fun l chainID utxo hI => hI) (hg.valid hT hgenesis inbound)
    ⟨hinit, hg.named hT hgenesis inbound _⟩ hops hrun
  constructor
  · intro txID hnext
    refine ⟨fun hnone => ?_, ?_⟩
    · have hnone' : m.disableAdding.hasDecisionTxs = false := hnone
      rw [buildBlock, buildBody, hnone', hnext]
      rfl
    · rw [proposalTx, (hsign _).1]
      exact rewardValidatorTx_ok hv hsupplied hnamed hnext huptimes parentID (hsign _).2
  intro txID t hnext htime
  refine ⟨fun hnone => ?_, fun hoverflow => ?_⟩
  · have hnone' : m.disableAdding.hasDecisionTxs = false := hnone
    rw [buildBlock, buildBody, hnone', hnext, htime]
    rfl
  · rw [proposalTx, (hsign _).1] at hoverflow ⊢
    exact advanceTimeTx_ok hv hnext htime parentID (hsign _).2 hoverflow

open SmallNetwork in
/-- The builder rewards the validator of the small network when its time is over. -/
theorem buildBlock_of_run_smallNetwork :
    ∃ br p, after genesis (ops.take 1) = .ok br ∧ getNextStakerToReward br.chain = .ok (⟨1⟩, true) ∧
      proposalTx backend env genesisBlk.id (some br.chain) rewardStx = .ok p := by
  have hobserved : (after genesis (ops.take 1)).toOption.map (fun br => getNextStakerToReward br.chain) =
      some (.ok (⟨1⟩, true)) := by decide +kernel
  obtain ⟨br, hbr, hnext⟩ := exists_of_observed hobserved
  obtain ⟨s, hs, hrun⟩ := bind_eq_ok.mp hbr
  have hops : ∀ op ∈ ops.take 1, ∀ stx ∈ op.tx, stx ∈ txs := fun op hop =>
    ops_txs op (take_subset _ _ hop)
  obtain ⟨p, hp⟩ := ((buildBlock_of_run txs_injOn rfl (by decide) genesis_wellFormed hs hops hrun
    (fun _ => 0) (fun utx => { id := ⟨3⟩, unsigned := utx, creds := [] }) (fun _ => ⟨rfl, rfl⟩)
    (fun _ => "") .new env (fun _ _ => rfl) genesisBlk.id).1 _ hnext).2
  exact ⟨br, p, hbr, hnext, hp⟩

end PlatformVM

end SavannahNode
