import SavannahNode.Spec.LedgerAdvance

/-!
# Runs of the ledger

`RewardValidatorTx` retires the first current staker, so every proposal is a step of the
ledger. A run executes proposals, of which one outcome is taken, and decisions, one after the
other, while other chains deliver UTXOs through shared memory.

## Key results

* `proposalTx_step` — `ProposalTxExecutor` on the state of a valid ledger.
* `Branch.execute_step` — an operation of a run is a step of the ledger.
* `Branch.run_rule` — what the steps keep holds after every run.
-/

namespace SavannahNode.PlatformVM

open Except Ledger List

/-! ## Rewards -/

namespace Diff.Reads

variable {d : Diff} {p c : Chain}

theorem refundStake (h : d.Reads p c) (ctx : Context) (txID : ID) (utx : UnsignedTx) :
    (PlatformVM.refundStake ctx d txID utx.outs utx.stake).Reads p
      (c.addUTXOs (refund ctx txID utx)) := by
  have hd := h.addUTXOs (refund ctx txID utx)
  rw [refund, foldl_map] at hd
  exact hd

theorem addRewardUTXO (h : d.Reads p c) (txID : ID) (utxo : UTXO) :
    (d.addRewardUTXO txID utxo).Reads p
      { c with rewardUTXOs := ((d.addRewardUTXO txID utxo).read p).rewardUTXOs } := by
  obtain rfl := h.read_eq
  exact h.of_read rfl rfl rfl rfl rfl

/-- What the diff reads as, up to the list of reward UTXOs. -/
theorem addReward (h : d.Reads p c) {ctx : Context} {txID : ID} {outputIndex amount : Nat}
    {owner : OutputOwners} {d' : Diff}
    (hadd : PlatformVM.addReward ctx d txID outputIndex amount owner = .ok d') :
    ∃ c', d'.Reads p c' ∧
      c'.bare = (c.addUTXOs (rewardUTXOs ctx txID outputIndex amount owner)).bare := by
  rw [PlatformVM.addReward] at hadd
  rw [rewardUTXOs]
  split at hadd
  · rename_i hpos
    obtain ⟨out, hout, hadd⟩ := bind_eq_ok.mp hadd
    cases hadd
    obtain ⟨-, hout⟩ := then_eq_ok.mp hout
    cases hout
    rw [if_pos hpos]
    have hd := h.addUTXOs [rewardUTXO ctx txID outputIndex amount owner]
    exact ⟨_, hd.addRewardUTXO txID (rewardUTXO ctx txID outputIndex amount owner), rfl⟩
  rename_i hpos
  cases hadd
  rw [if_neg hpos]
  exact ⟨c, h, rfl⟩

end Diff.Reads

section Reward

variable {b : Backend} {env : Env} {T : Set Tx} {l : Ledger} {stx : Tx} {parentID : ID}
  {p : Proposal} {s : Staker} {rest : List Staker} {t : Tx × TxStatus}

/-- A diff that retires the first staker. -/
theorem Executes.retire {c' : Chain} {status : TxStatus} {current : Stakers} {rewards : List UTXO}
    {d : Diff} (hutx : stx.unsigned = .rewardValidator s.txID)
    (hfirst : l.chain.current.stakers = s :: rest) (hend : s.endTime = l.chain.timestamp)
    (ht : l.chain.tx s.txID = some t) (hsupply : s.potentialReward ≤ l.chain.currentSupply)
    (hretires : Retires b.ctx l.chain s t.1.unsigned current rewards) (hd : d.Reads l.chain c')
    (hc' : c'.bare = ({ l.chain.addUTXOs (paid b.ctx s t.1.unsigned rewards status) with
        current
        currentSupply := supplyAfter l.chain s status } : Chain).bare) :
    Executes b l l.chain stx status d := by
  refine ⟨{ l.retire stx status s current (supplyAfter l.chain s status)
      (paid b.ctx s t.1.unsigned rewards status) with chain := c'.addTx stx status },
    hd.addTx stx status, .retire status hutx hfirst hend ht hsupply hretires ?_⟩
  have hbare : (c'.addTx stx status).bare = c'.bare.addTx stx status := rfl
  rw [Ledger.bare, hbare, hc']
  rfl

section

variable (hv : l.Valid b.ctx T) (hutx : stx.unsigned = .rewardValidator s.txID)
  (hfirst : l.chain.current.stakers = s :: rest) (hend : s.endTime = l.chain.timestamp)

include hv hutx hfirst hend

theorem rewardValidator_step {tx : AddValidatorTx}
    (ht : l.chain.tx s.txID = some t) (hsupply : s.potentialReward ≤ l.chain.currentSupply)
    (htx : t.1.unsigned = .addValidator tx)
    (h : rewardValidator b env s.txID (Diff.new parentID l.chain)
      { Diff.new parentID l.chain with currentSupply := l.chain.currentSupply - s.potentialReward }
      s tx = .ok p) : ProposalStep b l stx p := by
  simp only [rewardValidator, bind_eq_ok, ok.injEq] at h
  obtain ⟨onCommit, hadd, prefersCommit, -, rfl⟩ := h
  have hmem : s ∈ l.chain.current.stakers := by
    rw [hfirst]
    exact mem_cons_self
  have hval := (hv.isValidator_of_tx hmem ht htx).2
  have hnew := Diff.Reads.new hv.periods.current hv.periods.pending parentID
  have hchange := hnew.current.deleteValidator hv.periods.current hval hval
  have hretires : Retires b.ctx l.chain s t.1.unsigned _ _ := .validator tx htx
  have hcommit := (hnew.updateCurrent hchange).refundStake b.ctx s.txID t.1.unsigned
  have habort := ((hnew.setTime l.chain.timestamp (l.chain.currentSupply - s.potentialReward)).updateCurrent
    hchange).refundStake b.ctx s.txID t.1.unsigned
  rw [htx] at hcommit habort
  constructor
  · obtain ⟨c', hc', hbare⟩ := hcommit.addReward hadd
    refine .retire hutx hfirst hend ht hsupply hretires hc' (hbare.trans ?_)
    rw [htx, paid, Chain.addUTXOs, Chain.addUTXOs, Chain.addUTXOs, foldl_append]
    rfl
  refine .retire hutx hfirst hend ht hsupply hretires habort ?_
  rw [htx]
  rfl

theorem rewardDelegator_step {tx : AddDelegatorTx}
    (ht : l.chain.tx s.txID = some t) (hsupply : s.potentialReward ≤ l.chain.currentSupply)
    (htx : t.1.unsigned = .addDelegator tx)
    (h : rewardDelegator b env l.chain s.txID (Diff.new parentID l.chain)
      { Diff.new parentID l.chain with currentSupply := l.chain.currentSupply - s.potentialReward }
      s tx = .ok p) : ProposalStep b l stx p := by
  simp only [rewardDelegator, bind_eq_ok, ofOption_eq_ok] at h
  obtain ⟨v, hvdr, vtx, hvtx, h⟩ := h
  have hmem : s ∈ l.chain.current.stakers := by
    rw [hfirst]
    exact mem_cons_self
  have hdel := (hv.isDelegator_of_tx hmem ht htx).2
  have hnew := Diff.Reads.new hv.periods.current hv.periods.pending parentID
  have hchange := hnew.current.deleteDelegator hv.periods.current hdel hdel
  have hcommit := (hnew.updateCurrent hchange).refundStake b.ctx s.txID t.1.unsigned
  have habort := ((hnew.setTime l.chain.timestamp (l.chain.currentSupply - s.potentialReward)).updateCurrent
    hchange).refundStake b.ctx s.txID t.1.unsigned
  rw [htx] at hcommit habort
  split at h
  · rename_i vdrTx hvdrTx
    simp only [bind_eq_ok, ok.injEq] at h
    obtain ⟨d1, hadd1, d2, hadd2, prefersCommit, -, rfl⟩ := h
    have hretires : Retires b.ctx l.chain s t.1.unsigned _ _ :=
      .delegator tx v vtx vdrTx htx hvdr hvtx hvdrTx
    constructor
    · obtain ⟨c1, hc1, hbare1⟩ := hcommit.addReward hadd1
      obtain ⟨c2, hc2, hbare2⟩ := hc1.addReward hadd2
      refine .retire hutx hfirst hend ht hsupply hretires hc2 (hbare2.trans ?_)
      have hadd : ∀ (c : Chain) (utxos : List UTXO),
          (c.addUTXOs utxos).bare = c.bare.addUTXOs utxos := fun c utxos => rfl
      rw [hadd, hbare1, htx, paid, ← hadd, Chain.addUTXOs, Chain.addUTXOs, Chain.addUTXOs,
        Chain.addUTXOs, foldl_append, foldl_append]
      rfl
    refine .retire hutx hfirst hend ht hsupply hretires habort ?_
    rw [htx]
    rfl
  · cases h

end

theorem rewardValidatorTx_step {txID : ID} (hv : l.Valid b.ctx T)
    (hutx : stx.unsigned = .rewardValidator txID)
    (h : rewardValidatorTx b env parentID (some l.chain) stx txID = .ok p) :
    ProposalStep b l stx p := by
  simp only [rewardValidatorTx, bind_eq_ok, exists_unit, failIf_eq_ok, ofOption_eq_ok, not_not] at h
  obtain ⟨-, -, c, hc, s, hs, rfl, hend, t, ht, newSupply, hsupply, h⟩ := h
  cases hc
  obtain ⟨rest, hfirst⟩ := head?_eq_some_iff.mp hs
  obtain ⟨hle, rfl⟩ := sub64_eq_some hsupply
  split at h
  · exact rewardValidator_step hv hutx hfirst hend ht hle ‹_› h
  · exact rewardDelegator_step hv hutx hfirst hend ht hle ‹_› h
  · cases h

end Reward

/-- `ProposalTxExecutor` on a bootstrapped node. -/
theorem proposalTx_step {b : Backend} {env : Env} {T : Set Tx} {l : Ledger} {stx : Tx}
    {parentID : ID} {p : Proposal} (hT : Set.InjOn Tx.id T) (hboot : b.bootstrapped = true)
    (hmin : 0 < b.config.minStakeDuration) (hv : l.Valid b.ctx T) (hstx : stx ∈ T)
    (h : proposalTx b env parentID (some l.chain) stx = .ok p) : ProposalStep b l stx p := by
  rw [proposalTx] at h
  split at h
  · exact addValidatorTx_step hT hboot hmin hv hstx ‹_› h
  · exact addSubnetValidatorTx_step hT hboot hmin hv hstx ‹_› h
  · exact addDelegatorTx_step hT hboot hmin hv hstx ‹_› h
  · exact advanceTimeTx_step hv ‹_› h
  · exact rewardValidatorTx_step hv ‹_› h
  · cases h

/-! ## Runs -/

/-- A branch of blocks: its state, the shared memory, and the stakers that were rewarded. -/
structure Branch where
  chain : Chain
  memory : SharedMemory
  rewarded : List Staker

/-- One event of a run. -/
inductive BranchOp where
  | proposal (env : Env) (parentID : ID) (stx : Tx) (status : TxStatus)
  | decision (env : Env) (parentID : ID) (stx : Tx)
  | deliver (chainID : ID) (utxo : UTXO)

/-- The transaction that is executed. -/
def BranchOp.tx : BranchOp → Option Tx
  | .proposal _ _ stx _ => some stx
  | .decision _ _ stx => some stx
  | .deliver _ _ => none

/-- Another chain exports a UTXO to this one. It does so once, so that a UTXO that was imported
    does not come back. -/
def SharedMemory.deliver (m : SharedMemory) (chainID : ID) (utxo : UTXO) : SharedMemory :=
  if (chainID, utxo.utxoID) ∈ m.takenKeys then m
  else
    { m with
      inbound := Function.update m.inbound chainID
        (Function.update (m.inbound chainID) utxo.utxoID (some utxo)) }

/-- The state of one outcome. -/
def Proposal.outcome (p : Proposal) : TxStatus → Diff
  | .committed => p.onCommit
  | .aborted => p.onAbort

/-- The staker that a transaction rewards. -/
def rewardedBy (c : Chain) (utx : UnsignedTx) : TxStatus → List Staker
  | .committed => if utx.rewards.isSome then c.current.stakers.head?.toList else []
  | .aborted => []

namespace Branch

/-- Execute a transaction on the state of the branch, or let another chain export. -/
def execute (b : Backend) (br : Branch) : BranchOp → Except Err Branch
  | .proposal env parentID stx status => do
    let p ← proposalTx b env parentID (some br.chain) stx
    .ok
      { br with
        chain := ((p.outcome status).addTx stx status).read br.chain
        rewarded := br.rewarded ++ rewardedBy br.chain stx.unsigned status }
  | .decision env parentID stx => do
    let e ← standardTx b { env with memory := br.memory.inbound } br.chain
      (Diff.new parentID br.chain) stx
    .ok
      { br with
        chain := (e.state.addTx stx .committed).read br.chain
        memory := br.memory.serve e.atomicRequests }
  | .deliver chainID utxo => .ok { br with memory := br.memory.deliver chainID utxo }

/-- The branch with the UTXO IDs it has produced. -/
def ledger (br : Branch) (produced : List UTXOID) : Ledger :=
  { chain := br.chain, memory := br.memory, produced, rewarded := br.rewarded }

end Branch

/-! ## Operations are steps -/

section Steps

variable {b : Backend} {T : Set Tx} {l l' : Ledger} {stx : Tx} {status : TxStatus}

theorem Ledger.Step.memory_eq (h : Step b l stx status l') :
    l'.memory = l.memory.serve (stx.unsigned.requests stx.id) := by
  cases h with
  | spend _ _ hl' => exact congrArg memory hl'
  | enlist _ _ hl' => exact congrArg memory hl'
  | advance _ hutx _ _ _ hl' =>
    rw [← l'.memory_bare, hl', memory_bare, memory_advance, hutx]
    rfl
  | retire _ hutx _ _ _ _ _ hl' =>
    have hmemory : l'.memory = l.memory := congrArg (fun l => l.memory) hl'
    rw [hmemory, hutx]
    rfl

theorem rewardedBy_eq_nil {c : Chain} {utx : UnsignedTx} (h : utx.rewards = none) :
    rewardedBy c utx status = [] := by
  cases status with
  | committed =>
    rw [rewardedBy, h]
    rfl
  | aborted => rfl

theorem Ledger.Step.rewarded_eq (h : Step b l stx status l') :
    l'.rewarded = l.rewarded ++ rewardedBy l.chain stx.unsigned status := by
  cases h with
  | spend _ hs hl' =>
    rw [rewardedBy_eq_nil hs.no_reward, append_nil]
    exact congrArg (fun l => l.rewarded) hl'
  | enlist hs _ hl' =>
    rw [rewardedBy_eq_nil hs.no_reward, append_nil]
    exact congrArg (fun l => l.rewarded) hl'
  | advance _ hutx _ _ _ hl' =>
    rw [← l'.rewarded_bare, hl', rewarded_bare, rewarded_advance,
      rewardedBy_eq_nil (by rw [hutx]; rfl), append_nil]
  | retire _ hutx hfirst _ _ _ _ hl' =>
    have hrewarded := congrArg rewarded hl'
    cases status with
    | committed =>
      rw [hutx, rewardedBy, hfirst]
      exact hrewarded
    | aborted =>
      rw [rewardedBy, append_nil]
      exact hrewarded

theorem requests_eq_none {env : Env} {parentID : ID} {parent : Option Chain} {p : Proposal}
    (h : proposalTx b env parentID parent stx = .ok p) : stx.unsigned.requests stx.id = none := by
  rw [proposalTx] at h
  cases hutx : stx.unsigned with
  | importTx tx =>
    rw [hutx] at h
    cases h
  | exportTx tx =>
    rw [hutx] at h
    cases h
  | _ => rfl

end Steps

/-- Delivering a UTXO changes nothing that was recorded. -/
theorem Ledger.Valid.deliver {ctx : Context} {T : Set Tx} {l : Ledger} (h : l.Valid ctx T)
    (chainID : ID) (utxo : UTXO) :
    Valid ctx T { l with memory := l.memory.deliver chainID utxo } := by
  have htaken : (l.memory.deliver chainID utxo).takenKeys = l.memory.takenKeys := by
    rw [SharedMemory.deliver]
    split
    · rfl
    · rfl
  refine ⟨h.periods, { h.records with imported := ?_, taken := ?_ }, { h.staked with }⟩
  · rw [htaken]
    exact h.records.imported
  rw [htaken]
  intro k hk
  have hnone := h.records.taken k hk
  rw [SharedMemory.deliver]
  split
  · exact hnone
  rename_i hfree
  obtain ⟨c, id⟩ := k
  by_cases hc : c = chainID
  · subst hc
    have hid : id ≠ utxo.utxoID := by
      rintro rfl
      exact hfree hk
    simp only [Function.update_self, Function.update_of_ne hid]
    exact hnone
  simp only [Function.update_of_ne hc]
  exact hnone

namespace Branch

variable {b : Backend} {T : Set Tx} {br br' : Branch} {produced : List UTXOID}

theorem ledger_eq {l : Ledger} (hchain : br.chain = l.chain) (hmemory : br.memory = l.memory)
    (hrewarded : br.rewarded = l.rewarded) : br.ledger l.produced = l := by
  rw [ledger, hchain, hmemory, hrewarded]

/-- An operation is a step of the ledger, unless another chain exports. -/
theorem execute_step (hT : Set.InjOn Tx.id T) (hboot : b.bootstrapped = true)
    (hmin : 0 < b.config.minStakeDuration) (hv : (br.ledger produced).Valid b.ctx T) {op : BranchOp}
    (hop : ∀ stx ∈ op.tx, stx ∈ T) (h : br.execute b op = .ok br') :
    (∃ stx ∈ T, ∃ status produced', Step b (br.ledger produced) stx status (br'.ledger produced')) ∨
      ∃ chainID utxo, br' = { br with memory := br.memory.deliver chainID utxo } := by
  cases op with
  | proposal env parentID stx status =>
    have hstx := hop stx rfl
    obtain ⟨p, hp, h⟩ := bind_eq_ok.mp h
    cases h
    have hstep := proposalTx_step hT hboot hmin hv hstx hp
    have hexec : Executes b (br.ledger produced) br.chain stx status (p.outcome status) := by
      cases status with
      | committed => exact hstep.commit
      | aborted => exact hstep.abort
    obtain ⟨l', hreads, hl'⟩ := hexec
    refine .inl ⟨stx, hstx, status, l'.produced, ?_⟩
    have hmemory : l'.memory = br.memory := by
      rw [hl'.memory_eq, requests_eq_none hp]
      rfl
    refine (congrArg (Step b (br.ledger produced) stx status) (ledger_eq ?_ ?_ ?_)).mpr hl'
    · exact hreads.read_eq
    · exact hmemory.symm
    · exact hl'.rewarded_eq.symm
  | decision env parentID stx =>
    have hstx := hop stx rfl
    obtain ⟨e, he, h⟩ := bind_eq_ok.mp h
    cases h
    have hstep := standardTx_step (l := br.ledger produced) hboot
      (Diff.Reads.new hv.periods.current hv.periods.pending parentID) (fun _ _ => rfl) he
    obtain ⟨l', hreads, hl'⟩ := hstep.executes
    refine .inl ⟨stx, hstx, .committed, l'.produced, ?_⟩
    have hrewarded : l'.rewarded = br.rewarded := by
      refine hl'.rewarded_eq.trans ?_
      have hnone : stx.unsigned.rewards = none := by
        cases hutx : stx.unsigned with
        | rewardValidator txID =>
          rw [standardTx, hutx] at he
          cases he
        | _ => rfl
      rw [rewardedBy, hnone]
      exact append_nil _
    refine (congrArg (Step b (br.ledger produced) stx .committed) (ledger_eq ?_ ?_ ?_)).mpr hl'
    · exact hreads.read_eq
    · rw [hstep.requests]
      exact hl'.memory_eq.symm
    · exact hrewarded.symm
  | deliver chainID utxo =>
    cases h
    exact .inr ⟨chainID, utxo, rfl⟩

/-- Execute operations one after the other. -/
def run (b : Backend) (br : Branch) (ops : List BranchOp) : Except Err Branch :=
  ops.foldlM (execute b) br

/-- An invariant of the steps of valid ledgers holds after every run. The transactions of the
    run are from a set without collisions of IDs. -/
theorem run_rule {I : Ledger → Prop} (hT : Set.InjOn Tx.id T) (hboot : b.bootstrapped = true)
    (hmin : 0 < b.config.minStakeDuration)
    (hstep : ∀ l l' stx status, l.Valid b.ctx T → I l → stx ∈ T → Step b l stx status l' → I l')
    (hdeliver : ∀ l chainID utxo, I l → I { l with memory := l.memory.deliver chainID utxo })
    (hv : (br.ledger produced).Valid b.ctx T) (hI : I (br.ledger produced)) {ops : List BranchOp}
    (hops : ∀ op ∈ ops, ∀ stx ∈ op.tx, stx ∈ T) (h : br.run b ops = .ok br') :
    ∃ produced', (br'.ledger produced').Valid b.ctx T ∧ I (br'.ledger produced') := by
  refine foldlM_ok
    (P := fun br => ∃ produced, (br.ledger produced).Valid b.ctx T ∧ I (br.ledger produced)) h
    ⟨produced, hv, hI⟩ ?_
  rintro br op br' hop ⟨produced, hv, hI⟩ h
  rcases execute_step hT hboot hmin hv (hops op hop) h with ⟨stx, hstx, status, produced', hl'⟩ |
    ⟨chainID, utxo, rfl⟩
  · exact ⟨produced', hv.step hT hstx hl', hstep _ _ stx status hv hI hstx hl'⟩
  · exact ⟨produced, hv.deliver chainID utxo, hdeliver _ chainID utxo hI⟩

end Branch

end SavannahNode.PlatformVM
