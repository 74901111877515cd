import SavannahNode.Spec.LedgerGenesis

/-!
# The staker sets of every branch

In every state that a branch reaches from the genesis the periods of stakers fit the time of
the chain and the periods of the primary network validators they depend on. A reward therefore
finds the validator of a delegator.

## Key results

* `stakers_of_run` — the invariant of the staker sets, for every run.
* `exists_validator_twice` — a genesis that is not well formed.
-/

namespace SavannahNode.PlatformVM

open Except Ledger List

/-- The validator of a current delegator is found. -/
theorem Ledger.Valid.rewardDelegator_validator {b : Backend} {T : Set Tx} {l : Ledger}
    (hv : l.Valid b.ctx T) {s : Staker} {t : Tx × TxStatus} {tx : AddDelegatorTx}
    (hmem : s ∈ l.chain.current.stakers) (ht : l.chain.tx s.txID = some t)
    (htx : t.1.unsigned = .addDelegator tx) :
    ∃ v, l.chain.current.validator (primaryNetworkID, tx.validator.nodeID) = some v ∧
      l.chain.current.IsValidator v := by
  have hdel := (hv.isDelegator_of_tx hmem ht htx).2
  obtain ⟨v, hvdr, -⟩ := hv.periods.current_inside s (.inl hdel)
  have hnode : s.nodeID = tx.validator.nodeID := by
    have hrole := hv.current_role hmem ht
    rw [htx] at hrole
    rcases hrole with ⟨-, hof⟩ | ⟨-, hof⟩
    · cases hof
    cases hof with
    | delegator _ hs _ => exact hs.nodeID_eq
  rw [hnode] at hvdr
  exact ⟨v, hvdr, (hv.periods.current.validator_eq_some.mp hvdr).1⟩

/-! ## Errors of a reward -/

/-- The computation does not fail for want of a validator. -/
abbrev Finds {α : Type} (x : Except Err α) : Prop := x.FailsOnly (· ≠ Err.missingValidator)

@[simp] theorem addReward_finds (ctx : Context) (d : Diff) (txID : ID) (outputIndex amount : Nat)
    (owner : OutputOwners) : Finds (addReward ctx d txID outputIndex amount owner) := by
  simp [addReward, Fx.createOutput, OutputOwners.verify]

/-- `RewardValidatorTx` finds the validator of a delegator. -/
theorem rewardValidatorTx_finds {b : Backend} {env : Env} {T : Set Tx} {l : Ledger}
    {parentID : ID} (hv : l.Valid b.ctx T) (stx : Tx) (txID : ID) :
    Finds (rewardValidatorTx b env parentID (some l.chain) stx txID) := by
  simp only [rewardValidatorTx, failsOnly_bind_iff, failsOnly_failIf,
    failsOnly_ofOption, ne_eq, reduceCtorEq, not_false_eq_true, true_and]
  intro _ _ _ _ c hc s hs _ _ _ _ t ht _ _
  cases hc
  split
  · simp [rewardValidator, prefersReward]
  · rename_i tx htx
    -- the only error of this name is of the lookup that succeeds
    obtain ⟨v, hvdr, -⟩ := hv.rewardDelegator_validator
      (mem_of_head? (ofOption_eq_ok.mp hs)) (ofOption_eq_ok.mp ht) htx
    simp only [rewardDelegator, hvdr, failsOnly_bind_iff]
    refine ⟨failsOnly_ok v, fun _ _ => ⟨by simp, fun vdrTx _ => ?_⟩⟩
    split <;> simp [prefersReward]
  · simp

/-! ## Every run -/

/-- The invariant of the staker sets, in every state a branch reaches from the genesis. -/
theorem stakers_of_run {b : Backend} {T : Set Tx} {g : Genesis} {validators : Manager}
    {genesisBlk : Block} {s : State} {inbound : ID → UTXOID → Option UTXO} {ops : List BranchOp}
    {br : Branch} (hT : Set.InjOn Tx.id T) (hboot : b.bootstrapped = true)
    (hmin : 0 < b.config.minStakeDuration) (hg : g.WellFormed b.ctx T)
    (hgenesis : (State.empty validators).syncGenesis b genesisBlk g = .ok s)
    (hops : ∀ op ∈ ops, ∀ stx ∈ op.tx, stx ∈ T)
    (hrun : (Branch.genesis s inbound).run b ops = .ok br) :
    -- the iterators list exactly the validators and delegators
    (∀ x, x ∈ br.chain.current.stakers ↔
      br.chain.current.IsValidator x ∨ br.chain.current.IsDelegator x) ∧
    (∀ x, x ∈ br.chain.pending.stakers ↔
      br.chain.pending.IsValidator x ∨ br.chain.pending.IsDelegator x) ∧
    (∀ x ∈ br.chain.pending.stakers, br.chain.timestamp < x.startTime) ∧
    (∀ x ∈ br.chain.current.stakers,
      x.startTime ≤ br.chain.timestamp ∧ br.chain.timestamp ≤ x.endTime ∧
        (x.subnetID ≠ primaryNetworkID → br.chain.timestamp < x.endTime)) ∧
    (∀ x y, br.chain.IsValidator x → br.chain.IsValidator y → x.subnetID = y.subnetID →
      x.nodeID = y.nodeID → x = y) ∧
    (∀ x, br.chain.current.Depends x → ∃ v, br.chain.current.IsValidator v ∧
      v.subnetID = primaryNetworkID ∧ v.nodeID = x.nodeID ∧ x.Inside v) ∧
    (∀ x, br.chain.pending.Depends x → ∃ v, br.chain.IsValidator v ∧
      v.subnetID = primaryNetworkID ∧ v.nodeID = x.nodeID ∧ x.Inside v) ∧
    ∀ env parentID stx txID,
      rewardValidatorTx b env parentID (some br.chain) stx txID ≠ .error .missingValidator := by
  obtain ⟨produced, hv, -⟩ := Branch.run_rule (I := fun _ => True) hT hboot hmin
    (fun _ _ _ _ _ _ _ _ => trivial) (fun _ _ _ _ => trivial) (hg.valid hT hgenesis inbound) trivial
    hops hrun
  have hper : br.chain.Periods := hv.periods
  refine ⟨fun x => hper.current.mem_stakers, fun x => hper.pending.mem_stakers,
    fun x hx => (hper.pending_times x hx).2.1, fun x hx => ?_, fun x y hx hy hsubnet hnode => ?_,
    fun x hx => ?_, fun x hx => ?_, fun env parentID stx txID h =>
      (rewardValidatorTx_finds hv stx txID).of_error _ h rfl⟩
  · obtain ⟨-, hstart, hend⟩ := hper.current_times x hx
    refine ⟨hstart, hend, fun hsubnet => ?_⟩
    rcases hper.current.mem_stakers.mp hx with hval | hdel
    · rcases hper.current_validator x hval with ⟨hprimary, -⟩ | ⟨-, -, hlt⟩
      · exact absurd hprimary hsubnet
      · exact hlt
    · exact absurd (hper.current_delegator x hdel).1 hsubnet
  · have hx := hper.getValidator_eq hx
    have hy := hper.getValidator_eq hy
    rw [hsubnet, hnode, hy] at hx
    exact (Option.some.inj hx).symm
  · obtain ⟨v, hvdr, hinside⟩ := hper.current_inside x hx
    obtain ⟨hval, hslot⟩ := hper.current.validator_eq_some.mp hvdr
    exact ⟨v, hval, congrArg Prod.fst hslot, congrArg Prod.snd hslot, hinside⟩
  · obtain ⟨v, hvdr, hinside⟩ := hper.pending_inside x hx
    rcases Chain.getValidator_eq_some hvdr with hvdr | hvdr
    · obtain ⟨hval, hslot⟩ := hper.current.validator_eq_some.mp hvdr
      exact ⟨v, .inl hval, congrArg Prod.fst hslot, congrArg Prod.snd hslot, hinside⟩
    obtain ⟨hval, hslot⟩ := hper.pending.validator_eq_some.mp hvdr
    exact ⟨v, .inr hval, congrArg Prod.fst hslot, congrArg Prod.snd hslot, hinside⟩

/-! ## A small network

A network with one validator, which ends 100 seconds after the genesis. -/

namespace SmallNetwork

def owner : OutputOwners := { locktime := 0, threshold := 1, addrs := [⟨7⟩] }

def config : Config :=
  { addStakerTxFee := 1
    txFee := 1
    createAssetTxFee := 1
    createSubnetTxFee := 1
    createBlockchainTxFee := 1
    minValidatorStake := 5
    maxValidatorStake := 500
    minDelegatorStake := 5
    minDelegationFee := 0
    uptimePercentage := 4 / 5
    minStakeDuration := Time.second
    maxStakeDuration := 1000 * Time.second
    rewardConfig :=
      { maxConsumptionRate := 120000
        minConsumptionRate := 100000
        mintingPeriod := 1000 * Time.second
        supplyCap := 100000 }
    apricotPhase3Time := .unix 0
    apricotPhase5Time := .unix 0
    blueberryTime := .unix 0 }

def backend : Backend :=
  { config
    ctx :=
      { networkID := 1
        subnetID := primaryNetworkID
        chainID := ID.empty
        avaxAssetID := ⟨42⟩
        subnetOf := fun _ => none
        marshalledLess := fun _ _ => false }
    fx := { bootstrapped := true, recover := fun _ _ => some ⟨7⟩ }
    bootstrapped := true }

def base : BaseTx := { networkID := 1, blockchainID := ID.empty, outs := [], ins := [], memo := [] }

def output (amt : Nat) : TransferableOutput :=
  { assetID := ⟨42⟩, out := { locktime := none, out := { amt, owners := owner } } }

def input (utxoID : UTXOID) (amt : Nat) : TransferableInput :=
  { utxoID, assetID := ⟨42⟩, input := { locktime := none, input := { amt, input := ⟨[0]⟩ } } }

def validatorTx : AddValidatorTx :=
  { base
    validator := { nodeID := ⟨5⟩, start := 1000, stop := 1100, wght := 100 }
    stake := [output 100]
    rewardsOwner := owner
    shares := 20000 }

def validatorStx : Tx := { id := ⟨1⟩, unsigned := .addValidator validatorTx, creds := [] }

def genesis : Genesis :=
  { utxos :=
      [{ utxoID := { txID := ID.empty, outputIndex := 0 }
         assetID := ⟨42⟩
         out := { locktime := none, out := { amt := 1000, owners := owner } } }]
    validators := [validatorStx]
    chains := []
    timestamp := 1000
    initialSupply := 50000 }

def genesisBlk : Block := { id := ⟨9⟩, parent := ID.empty, height := 0, body := .standard [] }

/-- The time advances to the end of the validator, which is then rewarded. -/
def advanceStx : Tx := { id := ⟨2⟩, unsigned := .advanceTime 1100, creds := [] }

def rewardStx : Tx := { id := ⟨3⟩, unsigned := .rewardValidator ⟨1⟩, creds := [] }

/-- A delegator of the validator spends the UTXO of the genesis. -/
def delegatorStx (amt : Nat) : Tx :=
  { id := ⟨4⟩
    unsigned := .addDelegator
      { base := { base with outs := [output (999 - amt)], ins := [input ⟨ID.empty, 0⟩ 1000] }
        validator := { nodeID := ⟨5⟩, start := 1001, stop := 1100, wght := amt }
        stake := [output amt]
        rewardsOwner := owner }
    creds := [⟨[0]⟩] }

/-- Another validator spends the change. -/
def secondStx (amt : Nat) : Tx :=
  { id := ⟨5⟩
    unsigned := .addValidator
      { base := { base with outs := [output (898 - amt)], ins := [input ⟨⟨4⟩, 0⟩ (999 - amt)] }
        validator := { nodeID := ⟨6⟩, start := 1200, stop := 1300, wght := 100 }
        stake := [output 100]
        rewardsOwner := owner
        shares := 20000 }
    creds := [⟨[0]⟩] }

def startStx : Tx := { id := ⟨6⟩, unsigned := .advanceTime 1001, creds := [] }

def rewardDelegatorStx : Tx := { id := ⟨7⟩, unsigned := .rewardValidator ⟨4⟩, creds := [] }

def env : Env := { clk := .unix 1100, uptimes := fun _ _ => some 1, memory := fun _ _ => none }

def ops : List BranchOp :=
  [.proposal env genesisBlk.id advanceStx .committed, .proposal env genesisBlk.id rewardStx .committed]

/-- The run up to the end of the delegator. -/
def delegation (amt : Nat) : List BranchOp :=
  [delegatorStx amt, secondStx amt, startStx, advanceStx].map fun stx =>
    .proposal env genesisBlk.id stx .committed

/-- The transactions of the network. -/
def txs : Set Tx := {stx | stx ∈ [validatorStx, advanceStx, rewardStx, delegatorStx 300,
  secondStx 300, startStx, rewardDelegatorStx]}

theorem txs_injOn : Set.InjOn Tx.id txs := fun _ hx _ hy =>
  inj_on_of_nodup_map (by decide) hx hy

theorem genesis_wellFormed : genesis.WellFormed backend.ctx txs where
  utxo_source := by decide
  utxo_nodup := by decide
  txs := by
    intro stx hstx
    obtain rfl := mem_singleton.mp hstx
    exact ⟨mem_cons_self, by decide, rfl⟩
  nodes := pairwise_singleton _ _
  stakes := by
    intro stx hstx tx htx
    obtain rfl := mem_singleton.mp hstx
    cases htx
    exact ⟨by decide, by decide, by decide, by decide⟩
  active := by
    intro stx hstx tx htx
    obtain rfl := mem_singleton.mp hstx
    cases htx
    decide

theorem ops_txs : ∀ op ∈ ops, ∀ stx ∈ op.tx, stx ∈ txs := by
  simp [ops, BranchOp.tx, txs]

theorem delegation_txs : ∀ op ∈ delegation 300, ∀ stx ∈ op.tx, stx ∈ txs := by
  simp [delegation, BranchOp.tx, txs]

/-- The state of a network after some operations. -/
def after (g : Genesis) (ops : List BranchOp) : Except Err Branch := do
  let s ← (State.empty ∅).syncGenesis backend genesisBlk g
  (Branch.genesis s fun _ _ => none).run backend ops

/-- The validator takes twice the reward of its delegators. -/
def overcharging : Genesis := { genesis with
  validators := [{ validatorStx with unsigned := .addValidator { validatorTx with shares := 2000000 } }] }

/-- The node of the validator is named twice. -/
def doubled : Genesis := { genesis with validators := [validatorStx, { validatorStx with id := ⟨2⟩ }] }

end SmallNetwork

open SmallNetwork in
/-- The stakers when the delegator ends: both validators and the delegator. -/
theorem stakers_of_run_delegation : ∃ br, after genesis (delegation 300) = .ok br ∧
    br.chain.current.stakers.map (·.nodeID) = [⟨5⟩, ⟨5⟩] ∧
    br.chain.pending.stakers.map (·.nodeID) = [⟨6⟩] ∧
    (∀ x ∈ br.chain.pending.stakers, br.chain.timestamp < x.startTime) ∧
    ∀ x, br.chain.current.Depends x → ∃ v, br.chain.current.IsValidator v ∧
      v.subnetID = primaryNetworkID ∧ v.nodeID = x.nodeID ∧ x.Inside v := by
  have hobserved : (after genesis (delegation 300)).toOption.map (fun br =>
      (br.chain.current.stakers.map (·.nodeID), br.chain.pending.stakers.map (·.nodeID))) =
      some ([⟨5⟩, ⟨5⟩], [⟨6⟩]) := by decide +kernel
  obtain ⟨br, hbr, heq⟩ := exists_of_observed hobserved
  obtain ⟨hcurrent, hpending⟩ := Prod.mk.inj heq
  obtain ⟨s, hs, hrun⟩ := bind_eq_ok.mp hbr
  obtain ⟨-, -, htimes, -, -, hinside, -⟩ :=
    stakers_of_run txs_injOn rfl (by decide) genesis_wellFormed hs delegation_txs hrun
  exact ⟨br, hbr, hcurrent, hpending, htimes, hinside⟩

open SmallNetwork in
/-- A genesis that names a node twice is accepted, and makes it a validator twice. -/
theorem exists_validator_twice : ∃ br, after doubled [] = .ok br ∧
    br.chain.current.stakers.map (fun x => (x.txID, x.subnetID, x.nodeID)) =
      [(⟨1⟩, primaryNetworkID, ⟨5⟩), (⟨2⟩, primaryNetworkID, ⟨5⟩)] ∧
    ∀ x ∈ br.chain.current.stakers, x.priority = primaryNetworkValidatorCurrentPriority ∧
      br.chain.timestamp < x.endTime := by
  have hobserved : (after doubled []).toOption.map (fun br =>
      (br.chain.current.stakers.map (fun x => (x.txID, x.subnetID, x.nodeID)),
        decide (∀ x ∈ br.chain.current.stakers,
          x.priority = primaryNetworkValidatorCurrentPriority ∧ br.chain.timestamp < x.endTime))) =
      some ([(⟨1⟩, primaryNetworkID, ⟨5⟩), (⟨2⟩, primaryNetworkID, ⟨5⟩)], true) := by decide +kernel
  obtain ⟨br, hbr, heq⟩ := exists_of_observed hobserved
  obtain ⟨hstakers, hall⟩ := Prod.mk.inj heq
  exact ⟨br, hbr, hstakers, of_decide_eq_true hall⟩

end SavannahNode.PlatformVM
