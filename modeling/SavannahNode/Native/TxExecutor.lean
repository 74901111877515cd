import Mathlib.Data.Rat.Defs
import SavannahNode.Native.FlowCheck

/-!
# Executing transactions

The executors of `vms/platformvm/txs/executor`: `StandardTxExecutor` changes the diff of its
block, `ProposalTxExecutor` prepares one diff for the case that the proposal is committed and
one for the case that it is aborted. The state of the parent is a `Chain`, `none` if
`StateVersions.GetState` does not find it.

A rewards calculation divides by the supply and by the minting period; where one is zero the
source panics and `calculate` returns zero.
-/

namespace SavannahNode.PlatformVM

open Except Diff

/-! ## Rewards -/

/-- `reward.Config`. -/
structure RewardConfig where
  maxConsumptionRate : Nat
  minConsumptionRate : Nat
  mintingPeriod : Duration
  supplyCap : Nat

namespace RewardConfig

/-- `calculator.Calculate`. The subtractions are those of `uint64`. -/
def calculate (c : RewardConfig) (stakedDuration : Duration) (stakedAmount currentSupply : Nat) :
    Nat :=
  let duration := (stakedDuration % 2 ^ 64).toNat
  let mintingPeriod := (c.mintingPeriod % 2 ^ 64).toNat
  let maxSubMin := (c.maxConsumptionRate + 2 ^ 64 - c.minConsumptionRate) % 2 ^ 64
  let adjustedConsumptionRateNumerator := maxSubMin * duration + c.minConsumptionRate * mintingPeriod
  let adjustedConsumptionRateDenominator := mintingPeriod * percentDenominator
  let remaining := (c.supplyCap + 2 ^ 64 - currentSupply) % 2 ^ 64
  remaining * adjustedConsumptionRateNumerator * stakedAmount * duration
    / adjustedConsumptionRateDenominator / currentSupply / mintingPeriod % 2 ^ 64

end RewardConfig

/-! ## The backend -/

/-- The part of `config.Config` the executors read. -/
structure Config where
  addStakerTxFee : Nat
  txFee : Nat
  createAssetTxFee : Nat
  createSubnetTxFee : Nat
  createBlockchainTxFee : Nat
  minValidatorStake : Nat
  maxValidatorStake : Nat
  minDelegatorStake : Nat
  minDelegationFee : Nat
  uptimePercentage : ℚ
  minStakeDuration : Duration
  maxStakeDuration : Duration
  rewardConfig : RewardConfig
  apricotPhase3Time : Time
  apricotPhase5Time : Time
  blueberryTime : Time

namespace Config

/-- `GetCreateBlockchainTxFee`. -/
def getCreateBlockchainTxFee (c : Config) (t : Time) : Nat :=
  if t < c.apricotPhase3Time then c.createAssetTxFee else c.createBlockchainTxFee

/-- `GetCreateSubnetTxFee`. -/
def getCreateSubnetTxFee (c : Config) (t : Time) : Nat :=
  if t < c.apricotPhase3Time then c.createAssetTxFee else c.createSubnetTxFee

end Config

/-- `executor.Backend`, without what changes from call to call. -/
structure Backend where
  config : Config
  ctx : Context
  fx : Fx
  bootstrapped : Bool

/-- What a call finds outside of the chain's state. -/
structure Env where
  /-- The time on the node's clock. -/
  clk : Time
  /-- `CalculateUptimePercentFrom`. -/
  uptimes : NodeID → Time → Option ℚ
  /-- The UTXOs other chains have put into shared memory. -/
  memory : ID → UTXOID → Option UTXO
  /-- What is read below a diff whose parent state is gone: nothing, so that the call fails, or
      any state, if the call reads nothing there. -/
  orphaned : ID → Option Chain := fun _ => none

/-- `atomic.Requests`: the UTXOs put for a chain, and those taken from it. -/
structure Requests where
  puts : List UTXO
  removes : List UTXOID

/-! ## Decisions -/

/-- What `StandardTxExecutor` returns. -/
structure Execution where
  state : Diff
  inputs : List UTXOID
  /-- The chain the atomic requests are for, and the requests. -/
  atomicRequests : Option (ID × Requests)

section Standard

variable (b : Backend) (env : Env) (parent : Chain) (state : Diff) (stx : Tx)

/-- `verify.SameSubnet`. -/
def sameSubnet (ctx : Context) (peerChainID : ID) : Except Err Unit := do
  failIf (peerChainID = ctx.chainID) .sameChainID
  failIf (ctx.subnetOf peerChainID ≠ some ctx.subnetID) .mismatchedSubnetIDs

/-- The owner of a subnet. -/
def getSubnetOwner (c : Chain) (subnetID : ID) : Except Err OutputOwners := do
  let subnet ← ofOption .unknownSubnet (c.tx subnetID)
  match subnet.1.unsigned with
  | .createSubnet tx => .ok tx.owner
  | _ => .error .notASubnet

/-- `CreateChainTx`. The credential for the subnet is the last one. -/
def createChainTx (tx : CreateChainTx) : Except Err Execution := do
  stx.syntacticVerify b.ctx
  let subnetCred ← ofOption .wrongNumberOfCredentials stx.creds.getLast?
  let chain := state.read parent
  verifySpend b.fx env.clk stx.unsigned chain.utxo tx.base.ins tx.base.outs stx.creds.dropLast
    [(b.ctx.avaxAssetID, b.config.getCreateBlockchainTxFee chain.timestamp)]
  let owner ← getSubnetOwner chain tx.subnetID
  b.fx.verifyPermission env.clk stx.unsigned tx.subnetAuth subnetCred owner
  .ok
    { state := ((state.consume tx.base.ins).produce stx.id tx.base.outs).addChain stx tx.subnetID
      inputs := []
      atomicRequests := none }

/-- `CreateSubnetTx`. -/
def createSubnetTx (tx : CreateSubnetTx) : Except Err Execution := do
  stx.syntacticVerify b.ctx
  let chain := state.read parent
  verifySpend b.fx env.clk stx.unsigned chain.utxo tx.base.ins tx.base.outs stx.creds
    [(b.ctx.avaxAssetID, b.config.getCreateSubnetTxFee chain.timestamp)]
  .ok
    { state := ((state.consume tx.base.ins).produce stx.id tx.base.outs).addSubnet stx
      inputs := []
      atomicRequests := none }

/-- The checks of `ImportTx` on a bootstrapped node. -/
def verifyImport (tx : ImportTx) : Except Err Unit := do
  sameSubnet b.ctx tx.sourceChain
  let allUTXOs ← tx.importedInputs.mapM fun input =>
    ofOption Err.missingAtomicUTXO (env.memory tx.sourceChain input.utxoID)
  let utxos ← tx.base.ins.mapM fun input =>
    ofOption Err.missingUTXO ((state.read parent).utxo input.utxoID)
  verifySpendUTXOs b.fx env.clk stx.unsigned (utxos ++ allUTXOs) (tx.base.ins ++ tx.importedInputs)
    tx.base.outs stx.creds [(b.ctx.avaxAssetID, b.config.txFee)]

/-- `ImportTx`. -/
def importTx (tx : ImportTx) : Except Err Execution := do
  stx.syntacticVerify b.ctx
  failIf ((state.read parent).timestamp < b.config.blueberryTime ∧
    ∃ input ∈ tx.importedInputs, input.assetID ≠ b.ctx.avaxAssetID) .customAssetBeforeBlueberry
  onlyIf b.bootstrapped (verifyImport b env parent state stx tx)
  let utxoIDs := tx.importedInputs.map (·.utxoID)
  .ok
    { state := (state.consume tx.base.ins).produce stx.id tx.base.outs
      inputs := utxoIDs
      atomicRequests := some (tx.sourceChain, { puts := [], removes := utxoIDs }) }

/-- `ExportTx`. -/
def exportTx (tx : ExportTx) : Except Err Execution := do
  stx.syntacticVerify b.ctx
  onlyIf b.bootstrapped (sameSubnet b.ctx tx.destinationChain)
  verifySpend b.fx env.clk stx.unsigned (state.read parent).utxo tx.base.ins
    (tx.base.outs ++ tx.exportedOutputs) stx.creds [(b.ctx.avaxAssetID, b.config.txFee)]
  let elems := utxosFrom stx.id tx.base.outs.length tx.exportedOutputs
  .ok
    { state := (state.consume tx.base.ins).produce stx.id tx.base.outs
      inputs := []
      atomicRequests := some (tx.destinationChain, { puts := elems, removes := [] }) }

/-- `StandardTxExecutor`, visiting a transaction. -/
def standardTx : Except Err Execution :=
  match stx.unsigned with
  | .createChain tx => createChainTx b env parent state stx tx
  | .createSubnet tx => createSubnetTx b env parent state stx tx
  | .importTx tx => importTx b env parent state stx tx
  | .exportTx tx => exportTx b env parent state stx tx
  | _ => .error .wrongTxType

/-- `AtomicTxExecutor`, visiting a transaction: a new diff for one import or export. -/
def atomicTx (parentID : ID) : Except Err Execution :=
  match stx.unsigned with
  | .importTx tx => importTx b env parent (.new parentID parent) stx tx
  | .exportTx tx => exportTx b env parent (.new parentID parent) stx tx
  | _ => .error .wrongTxType

end Standard

/-! ## Proposals -/

/-- `MaxFutureStartTime`, two weeks. -/
def maxFutureStartTime : Duration := 24 * 7 * 2 * 3600 * Time.second

/-- `SyncBound`. -/
def syncBound : Duration := 10 * Time.second

/-- `MaxValidatorWeightFactor`. -/
def maxValidatorWeightFactor : Nat := 5

/-- What `ProposalTxExecutor` returns. -/
structure Proposal where
  onCommit : Diff
  onAbort : Diff
  prefersCommit : Bool

/-- `GetNextStakerChangeTime`. -/
def getNextStakerChangeTime (c : Chain) : Option Time :=
  match c.current.stakers, c.pending.stakers with
  | s :: _, t :: _ => some (if s.nextTime < t.nextTime then s.nextTime else t.nextTime)
  | s :: _, [] => some s.nextTime
  | [], t :: _ => some t.nextTime
  | [], [] => none

/-- The weight on a validator, its own included. -/
def getCurrentWeight (c : Chain) (validator : Staker) : Option Nat :=
  (c.current.delegators validator.slot).foldlM (fun weight d => add64 weight d.weight)
    validator.weight

/-- The loop of `GetMaxWeight` over the changes to come: the maximum so far and the weight. -/
def maxWeightLoop (startTime endTime : Time) : List (Staker × Bool) → Nat → Nat → Option Nat
  | [], currentMax, currentWeight => some (max currentMax currentWeight)
  | (delegator, isAdded) :: changes, currentMax, currentWeight =>
    if delegator.nextTime > endTime then some (max currentMax currentWeight)
    else do
      let currentMax := if ¬delegator.nextTime < startTime then max currentMax currentWeight else currentMax
      let op := if isAdded then add64 else sub64
      maxWeightLoop startTime endTime changes currentMax (← op currentWeight delegator.weight)

/-- `GetMaxWeight`. -/
def getMaxWeight (c : Chain) (validator : Staker) (startTime endTime : Time) : Option Nat := do
  let currentWeight ← getCurrentWeight c validator
  maxWeightLoop startTime endTime
    (stakerDiffs (c.current.delegators validator.slot) (c.pending.delegators validator.slot))
    0 currentWeight

/-- `canDelegate`, `none` for an overflow. -/
def canDelegate (c : Chain) (validator : Staker) (weightLimit : Nat) (delegator : Staker) :
    Option Bool :=
  if delegator.startTime < validator.startTime then some false
  else if delegator.endTime > validator.endTime then some false
  else do
    let maxWeight ← getMaxWeight c validator delegator.startTime delegator.endTime
    let newMaxWeight ← add64 maxWeight delegator.weight
    some (newMaxWeight ≤ weightLimit)

section Proposal

variable (b : Backend) (env : Env) (parentID : ID) (parent : Option Chain) (stx : Tx)

/-- The start time is in the future of the chain. -/
def verifyStartTime (c : Chain) (v : Validator) : Except Err Unit :=
  failIf (¬c.timestamp < v.startTime) .startTimeNotAfterTimestamp

/-- The start time is not too far in the future. -/
def verifyMaxStartTime (c : Chain) (v : Validator) : Except Err Unit :=
  failIf (v.startTime > Time.add c.timestamp maxFutureStartTime) .futureStakeTime

/-- The staking period is neither too short nor too long. -/
def verifyDuration (v : Validator) : Except Err Unit := do
  failIf (v.duration < b.config.minStakeDuration) .stakeTooShort
  failIf (v.duration > b.config.maxStakeDuration) .stakeTooLong

/-- The checks of `AddValidatorTx` on a bootstrapped node. -/
def verifyAddValidator (c : Chain) (tx : AddValidatorTx) : Except Err Unit := do
  verifyStartTime c tx.validator
  failIf (c.getValidator primaryNetworkID tx.validator.nodeID).isSome .duplicateValidator
  verifySpend b.fx env.clk stx.unsigned c.utxo tx.base.ins (tx.base.outs ++ tx.stake) stx.creds
    [(b.ctx.avaxAssetID, b.config.addStakerTxFee)]
  verifyMaxStartTime c tx.validator

/-- `AddValidatorTx`. -/
def addValidatorTx (tx : AddValidatorTx) : Except Err Proposal := do
  stx.syntacticVerify b.ctx
  failIf (tx.validator.wght < b.config.minValidatorStake) .weightTooSmall
  failIf (tx.validator.wght > b.config.maxValidatorStake) .weightTooLarge
  failIf (tx.shares < b.config.minDelegationFee) .insufficientDelegationFee
  verifyDuration b tx.validator
  let c ← ofOption .missingParentState parent
  failIf (¬c.timestamp < b.config.blueberryTime ∧ tx.validator.nodeID = ⟨0⟩) .emptyNodeID
  onlyIf b.bootstrapped (verifyAddValidator b env stx c tx)
  let newStaker := newPrimaryNetworkStaker stx.id tx.validator tx.validator.startTime
    primaryNetworkValidatorPendingPriority
  .ok
    { onCommit := (((new parentID c).consume tx.base.ins).produce stx.id
        tx.base.outs).putPendingValidator newStaker
      onAbort := ((new parentID c).consume tx.base.ins).produce stx.id (tx.base.outs ++ tx.stake)
      prefersCommit := tx.validator.startTime > env.clk }

/-- The checks of `AddSubnetValidatorTx` on a bootstrapped node. -/
def verifyAddSubnetValidator (c : Chain) (tx : AddSubnetValidatorTx) (subnetCred : Credential) :
    Except Err Unit := do
  verifyStartTime c tx.validator
  failIf (c.getValidator tx.subnet tx.validator.nodeID).isSome .duplicateValidator
  let primaryNetworkValidator ← ofOption .missingPrimaryNetworkValidator
    (c.getValidator primaryNetworkID tx.validator.nodeID)
  failIf
    (¬tx.validator.boundedBy primaryNetworkValidator.startTime primaryNetworkValidator.endTime)
    .validatorSubset
  let owner ← getSubnetOwner c tx.subnet
  b.fx.verifyPermission env.clk stx.unsigned tx.subnetAuth subnetCred owner
  verifySpend b.fx env.clk stx.unsigned c.utxo tx.base.ins tx.base.outs stx.creds.dropLast
    [(b.ctx.avaxAssetID, b.config.txFee)]
  verifyMaxStartTime c tx.validator

/-- `AddSubnetValidatorTx`. -/
def addSubnetValidatorTx (tx : AddSubnetValidatorTx) : Except Err Proposal := do
  stx.syntacticVerify b.ctx
  verifyDuration b tx.validator
  let subnetCred ← ofOption .wrongNumberOfCredentials stx.creds.getLast?
  let c ← ofOption .missingParentState parent
  onlyIf b.bootstrapped (verifyAddSubnetValidator b env stx c tx subnetCred)
  let newStaker := newSubnetStaker stx.id tx.validator tx.subnet tx.validator.startTime
    subnetValidatorPendingPriority
  let state := ((new parentID c).consume tx.base.ins).produce stx.id tx.base.outs
  .ok
    { onCommit := state.putPendingValidator newStaker
      onAbort := state
      prefersCommit := tx.validator.startTime > env.clk }

/-- The checks of `AddDelegatorTx` on a bootstrapped node. -/
def verifyAddDelegator (c : Chain) (tx : AddDelegatorTx) (newStaker : Staker) :
    Except Err Unit := do
  verifyStartTime c tx.validator
  let primaryNetworkValidator ← ofOption .missingPrimaryNetworkValidator
    (c.getValidator primaryNetworkID tx.validator.nodeID)
  let maximumWeight ← ofOption .stakeOverflow
    (mul64 maxValidatorWeightFactor primaryNetworkValidator.weight)
  let maximumWeight :=
    if ¬c.timestamp < b.config.apricotPhase3Time then min maximumWeight b.config.maxValidatorStake
    else maximumWeight
  let canDelegate ← ofOption .overflow
    (canDelegate c primaryNetworkValidator maximumWeight newStaker)
  failIf (canDelegate = false) .overDelegated
  verifySpend b.fx env.clk stx.unsigned c.utxo tx.base.ins (tx.base.outs ++ tx.stake) stx.creds
    [(b.ctx.avaxAssetID, b.config.addStakerTxFee)]
  verifyMaxStartTime c tx.validator

/-- `AddDelegatorTx`. -/
def addDelegatorTx (tx : AddDelegatorTx) : Except Err Proposal := do
  stx.syntacticVerify b.ctx
  verifyDuration b tx.validator
  failIf (tx.validator.wght < b.config.minDelegatorStake) .weightTooSmall
  let c ← ofOption .missingParentState parent
  let newStaker := newPrimaryNetworkStaker stx.id tx.validator tx.validator.startTime
    primaryNetworkDelegatorPendingPriority
  onlyIf b.bootstrapped (verifyAddDelegator b env stx c tx newStaker)
  .ok
    { onCommit := (((new parentID c).consume tx.base.ins).produce stx.id
        tx.base.outs).putPendingDelegator newStaker
      onAbort := ((new parentID c).consume tx.base.ins).produce stx.id (tx.base.outs ++ tx.stake)
      prefersCommit := tx.validator.startTime > env.clk }

/-- The stakers `AdvanceTimeTx` moves from the pending to the current set, and the supply. -/
structure Moved where
  currentSupply : Nat
  currentValidatorsToAdd : List Staker
  pendingValidatorsToRemove : List Staker
  currentDelegatorsToAdd : List Staker
  pendingDelegatorsToRemove : List Staker

/-- One pending staker of the first loop of `AdvanceTimeTx`. -/
def movePending (rewards : RewardConfig) (m : Moved) (stakerToRemove : Staker) : Except Err Moved :=
  let stakerToAdd := stakerToRemove.toCurrent
  let potentialReward := rewards.calculate
    (Time.sub stakerToRemove.endTime stakerToRemove.startTime) stakerToRemove.weight m.currentSupply
  if stakerToRemove.priority = primaryNetworkDelegatorPendingPriority then do
    let currentSupply ← ofOption .overflow (add64 m.currentSupply potentialReward)
    .ok
      { m with
        currentSupply
        currentDelegatorsToAdd := m.currentDelegatorsToAdd ++ [{ stakerToAdd with potentialReward }]
        pendingDelegatorsToRemove := m.pendingDelegatorsToRemove ++ [stakerToRemove] }
  else if stakerToRemove.priority = primaryNetworkValidatorPendingPriority then do
    let currentSupply ← ofOption .overflow (add64 m.currentSupply potentialReward)
    .ok
      { m with
        currentSupply
        currentValidatorsToAdd := m.currentValidatorsToAdd ++ [{ stakerToAdd with potentialReward }]
        pendingValidatorsToRemove := m.pendingValidatorsToRemove ++ [stakerToRemove] }
  else if stakerToRemove.priority = subnetValidatorPendingPriority then
    .ok
      { m with
        currentValidatorsToAdd := m.currentValidatorsToAdd ++ [stakerToAdd]
        pendingValidatorsToRemove := m.pendingValidatorsToRemove ++ [stakerToRemove] }
  else .error .unexpectedPriority

/-- The current stakers `AdvanceTimeTx` removes: stakers of primary network priority stay for
    `RewardValidatorTx`. -/
def currentValidatorsToRemove (c : Chain) (txTimestamp : Time) : List Staker :=
  c.current.stakers.takeWhile fun s =>
    ¬s.endTime > txTimestamp ∧ s.priority ≠ primaryNetworkDelegatorCurrentPriority ∧
      s.priority ≠ primaryNetworkValidatorCurrentPriority

/-- `AdvanceTimeTx`. -/
def advanceTimeTx (time : Nat) : Except Err Proposal := do
  failIf (stx.creds.length ≠ 0) .wrongNumberOfCredentials
  let txTimestamp := Time.unix time
  let localTimestampPlusSync := Time.add env.clk syncBound
  failIf (localTimestampPlusSync < txTimestamp) .timeTooFarInFuture
  let c ← ofOption .missingParentState parent
  failIf (¬txTimestamp > c.timestamp) .timestampNotAfter
  let nextStakerChangeTime ← ofOption .noStakers (getNextStakerChangeTime c)
  failIf (txTimestamp > nextStakerChangeTime) .timestampAfterStakerChange
  let moved ← (c.pending.stakers.takeWhile fun s => ¬s.startTime > txTimestamp).foldlM
    (movePending b.config.rewardConfig)
    { currentSupply := c.currentSupply
      currentValidatorsToAdd := []
      pendingValidatorsToRemove := []
      currentDelegatorsToAdd := []
      pendingDelegatorsToRemove := [] }
  let onCommit := { new parentID c with
    timestamp := txTimestamp, currentSupply := moved.currentSupply }
  let onCommit := moved.currentValidatorsToAdd.foldl putCurrentValidator onCommit
  let onCommit := moved.pendingValidatorsToRemove.foldl deletePendingValidator onCommit
  let onCommit := moved.currentDelegatorsToAdd.foldl putCurrentDelegator onCommit
  let onCommit := moved.pendingDelegatorsToRemove.foldl deletePendingDelegator onCommit
  let onCommit := (currentValidatorsToRemove c txTimestamp).foldl deleteCurrentValidator onCommit
  .ok
    { onCommit
      onAbort := new parentID c
      prefersCommit := ¬txTimestamp > localTimestampPlusSync }

/-- Add the UTXOs of the stake back. -/
def refundStake (ctx : Context) (d : Diff) (txID : ID) (outs stake : List TransferableOutput) :
    Diff :=
  (utxosFrom txID outs.length stake).foldl
    (fun d utxo => d.addUTXO { utxo with assetID := ctx.avaxAssetID }) d

/-- Add the UTXO of a reward, if there is one, to the commit state. -/
def addReward (ctx : Context) (d : Diff) (txID : ID) (outputIndex amount : Nat)
    (owner : OutputOwners) : Except Err Diff :=
  if amount > 0 then do
    let out ← Fx.createOutput amount owner
    let utxo : UTXO :=
      { utxoID := { txID, outputIndex }, assetID := ctx.avaxAssetID, out }
    .ok ((d.addUTXO utxo).addRewardUTXO txID utxo)
  else .ok d

/-- The delegator's part of a reward. The subtraction and the product are those of `uint64`. -/
def delegatorReward (shares potentialReward : Nat) : Nat :=
  let delegatorShares := (percentDenominator + 2 ^ 64 - shares) % 2 ^ 64
  match mul64 delegatorShares potentialReward with
  | some optimisticReward => optimisticReward / percentDenominator
  | none => delegatorShares * (potentialReward / percentDenominator) % 2 ^ 64

/-- The end of `RewardValidatorTx`. -/
def prefersReward (nodeID : NodeID) (startTime : Time) : Except Err Bool := do
  let uptime ← ofOption .uptime (env.uptimes nodeID startTime)
  .ok (uptime ≥ b.config.uptimePercentage)

/-- `RewardValidatorTx` for a validator. -/
def rewardValidator (txID : ID) (onCommit onAbort : Diff) (stakerToRemove : Staker)
    (tx : AddValidatorTx) : Except Err Proposal := do
  let onCommit := refundStake b.ctx (onCommit.deleteCurrentValidator stakerToRemove) txID
    tx.base.outs tx.stake
  let onAbort := refundStake b.ctx (onAbort.deleteCurrentValidator stakerToRemove) txID
    tx.base.outs tx.stake
  let onCommit ← addReward b.ctx onCommit txID (tx.base.outs.length + tx.stake.length)
    stakerToRemove.potentialReward tx.rewardsOwner
  let prefersCommit ← prefersReward b env tx.validator.nodeID tx.validator.startTime
  .ok { onCommit, onAbort, prefersCommit }

/-- `RewardValidatorTx` for a delegator. -/
def rewardDelegator (c : Chain) (txID : ID) (onCommit onAbort : Diff) (stakerToRemove : Staker)
    (tx : AddDelegatorTx) : Except Err Proposal := do
  let onCommit := refundStake b.ctx (onCommit.deleteCurrentDelegator stakerToRemove) txID
    tx.base.outs tx.stake
  let onAbort := refundStake b.ctx (onAbort.deleteCurrentDelegator stakerToRemove) txID
    tx.base.outs tx.stake
  let vdrStaker ← ofOption .missingValidator
    (c.current.validator (primaryNetworkID, tx.validator.nodeID))
  let vdrTx ← ofOption .missingValidatorTx (c.tx vdrStaker.txID)
  match vdrTx.1.unsigned with
  | .addValidator vdrTx => do
    let delegatorReward := delegatorReward vdrTx.shares stakerToRemove.potentialReward
    let delegateeReward := (stakerToRemove.potentialReward + 2 ^ 64 - delegatorReward) % 2 ^ 64
    let index := tx.base.outs.length + tx.stake.length
    let onCommit ← addReward b.ctx onCommit txID index delegatorReward tx.rewardsOwner
    let offset := if delegatorReward > 0 then 1 else 0
    let onCommit ← addReward b.ctx onCommit txID (index + offset) delegateeReward vdrTx.rewardsOwner
    let prefersCommit ← prefersReward b env tx.validator.nodeID vdrTx.validator.startTime
    .ok { onCommit, onAbort, prefersCommit }
  | _ => .error .wrongTxType

/-- `RewardValidatorTx`. -/
def rewardValidatorTx (txID : ID) : Except Err Proposal := do
  failIf (txID = ID.empty) .invalidID
  failIf (stx.creds.length ≠ 0) .wrongNumberOfCredentials
  let c ← ofOption .missingParentState parent
  let stakerToRemove ← ofOption .noStakers c.current.stakers.head?
  failIf (stakerToRemove.txID ≠ txID) .wrongStakerToRemove
  failIf (stakerToRemove.endTime ≠ c.timestamp) .notEndTime
  let stakerTx ← ofOption .missingStakerTx (c.tx stakerToRemove.txID)
  let onCommit := new parentID c
  let newSupply ← ofOption .overflow (sub64 c.currentSupply stakerToRemove.potentialReward)
  let onAbort := { new parentID c with currentSupply := newSupply }
  match stakerTx.1.unsigned with
  | .addValidator tx => rewardValidator b env txID onCommit onAbort stakerToRemove tx
  | .addDelegator tx => rewardDelegator b env c txID onCommit onAbort stakerToRemove tx
  | _ => .error .shouldBeDSValidator

/-- `ProposalTxExecutor`, visiting a transaction. -/
def proposalTx : Except Err Proposal :=
  match stx.unsigned with
  | .addValidator tx => addValidatorTx b env parentID parent stx tx
  | .addSubnetValidator tx => addSubnetValidatorTx b env parentID parent stx tx
  | .addDelegator tx => addDelegatorTx b env parentID parent stx tx
  | .advanceTime time => advanceTimeTx b env parentID parent stx time
  | .rewardValidator txID => rewardValidatorTx b env parentID parent stx txID
  | _ => .error .wrongTxType

end Proposal

end SavannahNode.PlatformVM
