import SavannahNode.Native.PlatformBlocks
import SavannahNode.Spec.StakerPeriods

/-!
# The ledger along one branch of blocks

A branch of the block tree executes one transaction after the other. This module says what
each of them does to the state it reads, without diffs: a transaction spends UTXOs and may
enlist a pending staker, an advance of the time moves pending stakers to the current set, and
a reward retires a current staker. The lists of subnets and chains are left open, because no
transaction reads them.

A ledger also remembers the UTXO IDs that were produced so far and the stakers that were
rewarded.

## Key results

* `Ledger.Step` — the effects of one transaction, and what its execution has checked.
-/

namespace SavannahNode.PlatformVM

/-! ## What a transaction takes and makes -/

namespace UnsignedTx

/-- The inputs from the UTXO set. -/
def ins : UnsignedTx → List TransferableInput
  | .addValidator tx => tx.base.ins
  | .addSubnetValidator tx => tx.base.ins
  | .addDelegator tx => tx.base.ins
  | .createChain tx => tx.base.ins
  | .createSubnet tx => tx.base.ins
  | .importTx tx => tx.base.ins
  | .exportTx tx => tx.base.ins
  | .advanceTime _ => []
  | .rewardValidator _ => []

/-- The outputs to the UTXO set. -/
def outs : UnsignedTx → List TransferableOutput
  | .addValidator tx => tx.base.outs
  | .addSubnetValidator tx => tx.base.outs
  | .addDelegator tx => tx.base.outs
  | .createChain tx => tx.base.outs
  | .createSubnet tx => tx.base.outs
  | .importTx tx => tx.base.outs
  | .exportTx tx => tx.base.outs
  | .advanceTime _ => []
  | .rewardValidator _ => []

/-- The outputs that are locked while the staker stakes. -/
def stake : UnsignedTx → List TransferableOutput
  | .addValidator tx => tx.stake
  | .addDelegator tx => tx.stake
  | _ => []

/-- The outputs to another chain. -/
def exported : UnsignedTx → List TransferableOutput
  | .exportTx tx => tx.exportedOutputs
  | _ => []

/-- All outputs, in the order of the flow check. -/
def made (utx : UnsignedTx) : List TransferableOutput := utx.outs ++ (utx.stake ++ utx.exported)

/-- The chains and keys of the inputs from shared memory. -/
def imported : UnsignedTx → List (ID × UTXOID)
  | .importTx tx => tx.importedInputs.map fun input => (tx.sourceChain, input.utxoID)
  | _ => []

/-- The requests to shared memory. -/
def requests (txID : ID) : UnsignedTx → Option (ID × Requests)
  | .importTx tx =>
    some (tx.sourceChain, { puts := [], removes := tx.importedInputs.map (·.utxoID) })
  | .exportTx tx =>
    some (tx.destinationChain,
      { puts := utxosFrom txID tx.base.outs.length tx.exportedOutputs, removes := [] })
  | _ => none

/-- The transaction of the staker that is to be rewarded. -/
def rewards : UnsignedTx → Option ID
  | .rewardValidator txID => some txID
  | _ => none

/-- The fee. -/
def fee (config : Config) (t : Time) : UnsignedTx → Nat
  | .addValidator _ => config.addStakerTxFee
  | .addSubnetValidator _ => config.txFee
  | .addDelegator _ => config.addStakerTxFee
  | .createChain _ => config.getCreateBlockchainTxFee t
  | .createSubnet _ => config.getCreateSubnetTxFee t
  | .importTx _ => config.txFee
  | .exportTx _ => config.txFee
  | .advanceTime _ => 0
  | .rewardValidator _ => 0

end UnsignedTx

/-- Serve the requests of one transaction. -/
def SharedMemory.serve (m : SharedMemory) : Option (ID × Requests) → SharedMemory
  | none => m
  | some (peerChainID, r) => m.applyRequests peerChainID r

/-! ## The ledger -/

/-- The state of a branch, and its history. -/
structure Ledger where
  chain : Chain
  memory : SharedMemory
  produced : List UTXOID
  rewarded : List Staker

/-- The state without what no transaction reads. -/
def Chain.bare (c : Chain) : Chain :=
  { c with rewardUTXOs := fun _ => [], subnets := [], chains := fun _ => [] }

namespace Ledger

/-- The ledger without what no transaction reads. -/
def bare (l : Ledger) : Ledger := { l with chain := l.chain.bare }

/-- A transaction spends its inputs and produces outputs. -/
def spend (l : Ledger) (stx : Tx) (status : TxStatus) (outs : List TransferableOutput)
    (pending : Stakers) : Ledger :=
  { l with
    chain :=
      { ((l.chain.deleteUTXOs (stx.unsigned.ins.map (·.utxoID))).addUTXOs
          (utxosFrom stx.id 0 outs)).addTx stx status with pending }
    memory := l.memory.serve (stx.unsigned.requests stx.id)
    produced := l.produced ++ (utxosFrom stx.id 0 outs).map UTXO.utxoID }

/-- The time advances. -/
def advance (l : Ledger) (stx : Tx) (timestamp : Time) (currentSupply : Nat)
    (current pending : Stakers) : Ledger :=
  { l with chain := { l.chain.addTx stx .committed with timestamp, currentSupply, current, pending } }

/-- A staker leaves the current set, and UTXOs are produced for it. -/
def retire (l : Ledger) (stx : Tx) (status : TxStatus) (s : Staker) (current : Stakers)
    (currentSupply : Nat) (utxos : List UTXO) : Ledger :=
  { l with
    chain := { (l.chain.addUTXOs utxos).addTx stx status with current, currentSupply }
    produced := l.produced ++ utxos.map UTXO.utxoID
    rewarded := match status with
      | .committed => l.rewarded ++ [s]
      | .aborted => l.rewarded }

section Fields

variable (l : Ledger) (stx : Tx) (current pending : Stakers) (timestamp : Time) (currentSupply : Nat)

theorem memory_bare : l.bare.memory = l.memory := rfl

theorem memory_advance : (l.advance stx timestamp currentSupply current pending).memory = l.memory :=
  rfl

theorem rewarded_bare : l.bare.rewarded = l.rewarded := rfl

theorem rewarded_advance :
    (l.advance stx timestamp currentSupply current pending).rewarded = l.rewarded := rfl

end Fields

/-- What the syntactic and the flow check of a transaction guarantee. -/
structure Spends (b : Backend) (l : Ledger) (stx : Tx) : Prop where
  no_reward : stx.unsigned.rewards = none
  named : stx.unsigned.made ≠ [] → stx.id ≠ ID.empty
  nodup_ins : (stx.unsigned.ins.map (·.utxoID)).Nodup
  nodup_imported : stx.unsigned.imported.Nodup
  shares : ∀ tx, stx.unsigned = .addValidator tx → tx.shares ≤ percentDenominator
  positive : ∀ o ∈ stx.unsigned.made, 0 < o.out.amount
  covered : ∃ consumed taken : List UTXO,
    List.Forall₂ (fun i u => l.chain.utxo i.utxoID = some u) stx.unsigned.ins consumed ∧
    List.Forall₂ (fun k u => l.memory.inbound k.1 k.2 = some u) stx.unsigned.imported taken ∧
    ∀ assetID, amountOf assetID [(b.ctx.avaxAssetID, stx.unsigned.fee b.config l.chain.timestamp)] +
        amountOf assetID (stx.unsigned.made.map TransferableOutput.entry) ≤
      amountOf assetID ((consumed ++ taken).map UTXO.entry)

/-- The stake of a staker of the primary network, and who is rewarded. -/
structure Stakes (ctx : Context) (v : Validator) (stake : List TransferableOutput)
    (owner : OutputOwners) : Prop where
  avax : ∀ o ∈ stake, o.assetID = ctx.avaxAssetID
  weight : (stake.map (·.out.amount)).sum = v.wght
  weight_pos : 0 < v.wght
  owner : owner.verify = .ok ()

/-- The weight a validator may have with its delegators, `none` for an overflow. -/
def maximumWeight (b : Backend) (c : Chain) (v : Staker) : Option Nat :=
  (mul64 maxValidatorWeightFactor v.weight).map fun weight =>
    if ¬c.timestamp < b.config.apricotPhase3Time then min weight b.config.maxValidatorStake else weight

/-- The pending stakers after a transaction that is committed, and what it has checked. -/
inductive Enlists (b : Backend) (c : Chain) (stx : Tx) : Stakers → Prop where
  | validator (tx : AddValidatorTx) (htx : stx.unsigned = .addValidator tx)
      (hstake : Stakes b.ctx tx.validator tx.stake tx.rewardsOwner)
      (hmin : b.config.minValidatorStake ≤ tx.validator.wght)
      (hmax : tx.validator.wght ≤ b.config.maxValidatorStake)
      (hstart : c.timestamp < tx.validator.startTime)
      (hperiod : tx.validator.startTime < tx.validator.endTime)
      (hfree : c.getValidator primaryNetworkID tx.validator.nodeID = none) :
      Enlists b c stx (c.pending.putValidator (newPrimaryNetworkStaker stx.id tx.validator
        tx.validator.startTime primaryNetworkValidatorPendingPriority))
  | subnetValidator (tx : AddSubnetValidatorTx) (v : Staker)
      (htx : stx.unsigned = .addSubnetValidator tx) (hsubnet : tx.subnet ≠ primaryNetworkID)
      (hstart : c.timestamp < tx.validator.startTime)
      (hperiod : tx.validator.startTime < tx.validator.endTime)
      (hfree : c.getValidator tx.subnet tx.validator.nodeID = none)
      (hv : c.getValidator primaryNetworkID tx.validator.nodeID = some v)
      (hinside : v.startTime ≤ tx.validator.startTime ∧ tx.validator.endTime ≤ v.endTime) :
      Enlists b c stx (c.pending.putValidator (newSubnetStaker stx.id tx.validator tx.subnet
        tx.validator.startTime subnetValidatorPendingPriority))
  | delegator (tx : AddDelegatorTx) (v : Staker) (limit : Nat)
      (htx : stx.unsigned = .addDelegator tx)
      (hstake : Stakes b.ctx tx.validator tx.stake tx.rewardsOwner)
      (hstart : c.timestamp < tx.validator.startTime)
      (hperiod : tx.validator.startTime < tx.validator.endTime)
      (hv : c.getValidator primaryNetworkID tx.validator.nodeID = some v)
      (hlimit : maximumWeight b c v = some limit)
      (hcan : canDelegate c v limit (newPrimaryNetworkStaker stx.id tx.validator
        tx.validator.startTime primaryNetworkDelegatorPendingPriority) = some true) :
      Enlists b c stx (c.pending.putDelegator (newPrimaryNetworkStaker stx.id tx.validator
        tx.validator.startTime primaryNetworkDelegatorPendingPriority))

/-- The pending staker `s` becomes the current staker `n`. -/
structure Becomes (s n : Staker) : Prop where
  eq : n = { s.toCurrent with potentialReward := n.potentialReward }
  reward_lt : n.potentialReward < 2 ^ 64
  subnet : s.subnetID ≠ primaryNetworkID → n.potentialReward = 0

/-- The staker sets and the supply after an advance of the time. -/
structure Moves (c : Chain) (t : Time) (moved : List Staker) (currentSupply : Nat)
    (current pending : Stakers) : Prop where
  becomes : List.Forall₂ Becomes (c.pending.stakers.takeWhile fun s => ¬s.startTime > t) moved
  supply : currentSupply = c.currentSupply + (moved.map (·.potentialReward)).sum
  current_coherent : current.Coherent
  pending_coherent : pending.Coherent
  current_validator : ∀ x, current.IsValidator x ↔
    x ∈ moved ∧ x.priority ≠ primaryNetworkDelegatorCurrentPriority ∨
      c.current.IsValidator x ∧ x ∉ currentValidatorsToRemove c t
  current_delegator : ∀ x, current.IsDelegator x ↔
    x ∈ moved ∧ x.priority = primaryNetworkDelegatorCurrentPriority ∨ c.current.IsDelegator x
  pending_validator : ∀ x, pending.IsValidator x ↔ c.pending.IsValidator x ∧ t < x.startTime
  pending_delegator : ∀ x, pending.IsDelegator x ↔ c.pending.IsDelegator x ∧ t < x.startTime

section

variable (ctx : Context) (txID : ID) (outputIndex amount : Nat) (owner : OutputOwners)

/-- The output a reward is paid with. -/
def rewardUTXO : UTXO :=
  { utxoID := { txID, outputIndex }
    assetID := ctx.avaxAssetID
    out := { locktime := none, out := { amt := amount, owners := owner } } }

/-- The UTXO of a reward, if there is one. -/
def rewardUTXOs : List UTXO :=
  if amount > 0 then [rewardUTXO ctx txID outputIndex amount owner] else []

/-- The UTXOs that return the stake. -/
def refund (utx : UnsignedTx) : List UTXO :=
  (utxosFrom txID utx.outs.length utx.stake).map fun utxo => { utxo with assetID := ctx.avaxAssetID }

/-- The UTXOs for a staker that leaves. -/
def paid (s : Staker) (utx : UnsignedTx) (rewards : List UTXO) : TxStatus → List UTXO
  | .committed => refund ctx s.txID utx ++ rewards
  | .aborted => refund ctx s.txID utx

/-- The supply after a staker has left. -/
def supplyAfter (c : Chain) (s : Staker) : TxStatus → Nat
  | .committed => c.currentSupply
  | .aborted => c.currentSupply - s.potentialReward

end

/-- The current stakers after one of them has left, and the UTXOs that pay its reward. -/
inductive Retires (ctx : Context) (c : Chain) (s : Staker) (utx : UnsignedTx) :
    Stakers → List UTXO → Prop where
  | validator (tx : AddValidatorTx) (htx : utx = .addValidator tx) :
      Retires ctx c s utx (c.current.deleteValidator s)
        (rewardUTXOs ctx s.txID (tx.base.outs.length + tx.stake.length) s.potentialReward
          tx.rewardsOwner)
  | delegator (tx : AddDelegatorTx) (v : Staker) (vtx : Tx × TxStatus) (vdrTx : AddValidatorTx)
      (htx : utx = .addDelegator tx)
      (hv : c.current.validator (primaryNetworkID, tx.validator.nodeID) = some v)
      (hvtx : c.tx v.txID = some vtx) (hvdrTx : vtx.1.unsigned = .addValidator vdrTx) :
      Retires ctx c s utx (c.current.deleteDelegator s)
        (let reward := delegatorReward vdrTx.shares s.potentialReward
         let index := tx.base.outs.length + tx.stake.length
         rewardUTXOs ctx s.txID index reward tx.rewardsOwner ++
           rewardUTXOs ctx s.txID (index + if reward > 0 then 1 else 0)
             ((s.potentialReward + 2 ^ 64 - reward) % 2 ^ 64) vdrTx.rewardsOwner)

/-- One transaction: committed, or aborted. What is not read is left open. -/
inductive Step (b : Backend) (l : Ledger) (stx : Tx) : TxStatus → Ledger → Prop where
  /-- A transaction that adds no staker returns its stake, if it has one. -/
  | spend {l' : Ledger} (status : TxStatus) (h : Spends b l stx)
      (hl' : l'.bare =
        (l.spend stx status (stx.unsigned.outs ++ stx.unsigned.stake) l.chain.pending).bare) :
      Step b l stx status l'
  | enlist {l' : Ledger} {pending : Stakers} (h : Spends b l stx)
      (hpending : Enlists b l.chain stx pending)
      (hl' : l'.bare = (l.spend stx .committed stx.unsigned.outs pending).bare) :
      Step b l stx .committed l'
  | advance {l' : Ledger} (time : Nat) {moved : List Staker} {supply : Nat}
      {current pending : Stakers} (hutx : stx.unsigned = .advanceTime time)
      (hafter : l.chain.timestamp < Time.unix time)
      (hchange : ∃ t, getNextStakerChangeTime l.chain = some t ∧ Time.unix time ≤ t)
      (hmoves : Moves l.chain (Time.unix time) moved supply current pending)
      (hl' : l'.bare = (l.advance stx (Time.unix time) supply current pending).bare) :
      Step b l stx .committed l'
  | retire {l' : Ledger} (status : TxStatus) {s : Staker} {rest : List Staker} {t : Tx × TxStatus}
      {current : Stakers} {rewards : List UTXO} (hutx : stx.unsigned = .rewardValidator s.txID)
      (hfirst : l.chain.current.stakers = s :: rest) (hend : s.endTime = l.chain.timestamp)
      (ht : l.chain.tx s.txID = some t) (hsupply : s.potentialReward ≤ l.chain.currentSupply)
      (hretires : Retires b.ctx l.chain s t.1.unsigned current rewards)
      (hl' : l'.bare = (l.retire stx status s current (supplyAfter l.chain s status)
        (paid b.ctx s t.1.unsigned rewards status)).bare) :
      Step b l stx status l'

namespace Step

variable {b : Backend} {l l' : Ledger} {stx : Tx} {status : TxStatus}

theorem tx_eq (h : Step b l stx status l') :
    l'.chain.tx = Function.update l.chain.tx stx.id (some (stx, status)) := by
  cases h <;> rename_i hl' <;> exact congrArg (fun x : Ledger => x.chain.tx) hl'

/-- Only an advance of the time and a reward are not checked for what they spend. -/
theorem spends_or (h : Step b l stx status l') : Spends b l stx ∨
    (∃ time, stx.unsigned = .advanceTime time) ∨ ∃ txID, stx.unsigned = .rewardValidator txID := by
  cases h with
  | spend _ hs _ => exact .inl hs
  | enlist hs _ _ => exact .inl hs
  | advance time hutx _ _ _ _ => exact .inr (.inl ⟨time, hutx⟩)
  | retire _ hutx _ _ _ _ _ _ => exact .inr (.inr ⟨_, hutx⟩)

/-- What holds for the new transaction and for those before it holds for all. -/
theorem recorded {P : ID → UnsignedTx → Prop} (h : Step b l stx status l')
    (hold : ∀ id t, l.chain.tx id = some t → P id t.1.unsigned) (hnew : P stx.id stx.unsigned) :
    ∀ id t, l'.chain.tx id = some t → P id t.1.unsigned := by
  intro id t ht
  rw [h.tx_eq, Function.update_apply] at ht
  split at ht
  · rename_i hid
    subst hid
    cases ht
    exact hnew
  · exact hold id t ht

end Step

end Ledger

end SavannahNode.PlatformVM
