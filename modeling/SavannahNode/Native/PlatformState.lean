import SavannahNode.Native.PlatformTxs

/-!
# State versions of the P-chain

A `state.Chain` is given by what its getters return. A block does not change the state: it
records its changes in a `diff` over the state of its parent (`vms/platformvm/state/diff.go`),
and `Diff.read` is the `Chain` the diff presents on top of that state. The lists a diff caches
for `GetSubnets` and `GetChains` are what it would compute again and are left out.
-/

namespace SavannahNode.PlatformVM

/-- A `state.Chain`, by the results of its getters; `none` is `database.ErrNotFound`. -/
structure Chain where
  timestamp : Time
  currentSupply : Nat
  current : Stakers
  pending : Stakers
  tx : ID → Option (Tx × TxStatus)
  rewardUTXOs : ID → List UTXO
  utxo : UTXOID → Option UTXO
  subnets : List Tx
  chains : ID → List Tx

/-- `GetValidator` of the executor: the current validator, or else the pending one. -/
def Chain.getValidator (c : Chain) (subnetID : ID) (nodeID : NodeID) : Option Staker :=
  match c.current.validator (subnetID, nodeID) with
  | some validator => some validator
  | none => c.pending.validator (subnetID, nodeID)

/-- `diff`. In `modifiedUTXOs`, `none` is a UTXO that has been removed. -/
structure Diff where
  parentID : ID
  timestamp : Time
  currentSupply : Nat
  currentStakerDiffs : DiffStakers
  pendingStakerDiffs : DiffStakers
  addedSubnets : List Tx
  addedChains : IDMap (List Tx)
  addedRewardUTXOs : IDMap (List UTXO)
  addedTxs : IDMap (Tx × TxStatus)
  modifiedUTXOs : Finmap fun _ : UTXOID => Option UTXO

namespace Diff

variable (d : Diff) (s : Staker)

/-- `NewDiff`, given the state of the parent. -/
def new (parentID : ID) (parent : Chain) : Diff :=
  { parentID
    timestamp := parent.timestamp
    currentSupply := parent.currentSupply
    currentStakerDiffs := .empty
    pendingStakerDiffs := .empty
    addedSubnets := []
    addedChains := ∅
    addedRewardUTXOs := ∅
    addedTxs := ∅
    modifiedUTXOs := ∅ }

/-- The getters over those of the parent state. -/
def read (d : Diff) (parent : Chain) : Chain :=
  { timestamp := d.timestamp
    currentSupply := d.currentSupply
    current := d.currentStakerDiffs.read parent.current
    pending := d.pendingStakerDiffs.read parent.pending
    tx := fun txID => (d.addedTxs.lookup txID).or (parent.tx txID)
    rewardUTXOs := fun txID => (d.addedRewardUTXOs.lookup txID).getD (parent.rewardUTXOs txID)
    utxo := fun utxoID => (d.modifiedUTXOs.lookup utxoID).getD (parent.utxo utxoID)
    subnets := parent.subnets ++ d.addedSubnets
    chains := fun subnetID => parent.chains subnetID ++ (d.addedChains.lookup subnetID).getD [] }

/-- `PutCurrentValidator`. -/
def putCurrentValidator : Diff :=
  { d with currentStakerDiffs := d.currentStakerDiffs.putValidator s }

/-- `DeleteCurrentValidator`. -/
def deleteCurrentValidator : Diff :=
  { d with currentStakerDiffs := d.currentStakerDiffs.deleteValidator s }

/-- `PutCurrentDelegator`. -/
def putCurrentDelegator : Diff :=
  { d with currentStakerDiffs := d.currentStakerDiffs.putDelegator s }

/-- `DeleteCurrentDelegator`. -/
def deleteCurrentDelegator : Diff :=
  { d with currentStakerDiffs := d.currentStakerDiffs.deleteDelegator s }

/-- `PutPendingValidator`. -/
def putPendingValidator : Diff :=
  { d with pendingStakerDiffs := d.pendingStakerDiffs.putValidator s }

/-- `DeletePendingValidator`. -/
def deletePendingValidator : Diff :=
  { d with pendingStakerDiffs := d.pendingStakerDiffs.deleteValidator s }

/-- `PutPendingDelegator`. -/
def putPendingDelegator : Diff :=
  { d with pendingStakerDiffs := d.pendingStakerDiffs.putDelegator s }

/-- `DeletePendingDelegator`. -/
def deletePendingDelegator : Diff :=
  { d with pendingStakerDiffs := d.pendingStakerDiffs.deleteDelegator s }

/-- `AddSubnet`. -/
def addSubnet (createSubnetTx : Tx) : Diff :=
  { d with addedSubnets := d.addedSubnets ++ [createSubnetTx] }

/-- `AddChain`, for the subnet the transaction names. -/
def addChain (createChainTx : Tx) (subnetID : ID) : Diff :=
  { d with
    addedChains := d.addedChains.insert subnetID
      ((d.addedChains.lookup subnetID).getD [] ++ [createChainTx]) }

/-- `AddTx`. -/
def addTx (tx : Tx) (status : TxStatus) : Diff :=
  { d with addedTxs := d.addedTxs.insert tx.id (tx, status) }

/-- `AddRewardUTXO`. -/
def addRewardUTXO (txID : ID) (utxo : UTXO) : Diff :=
  { d with
    addedRewardUTXOs := d.addedRewardUTXOs.insert txID
      ((d.addedRewardUTXOs.lookup txID).getD [] ++ [utxo]) }

/-- `AddUTXO`. -/
def addUTXO (utxo : UTXO) : Diff :=
  { d with modifiedUTXOs := d.modifiedUTXOs.insert utxo.utxoID (some utxo) }

/-- `DeleteUTXO`. -/
def deleteUTXO (utxoID : UTXOID) : Diff :=
  { d with modifiedUTXOs := d.modifiedUTXOs.insert utxoID none }

/-- `utxo.Consume`. -/
def consume (ins : List TransferableInput) : Diff :=
  ins.foldl (fun d input => d.deleteUTXO input.utxoID) d

end Diff

/-- The UTXOs of outputs of a transaction, the first of which has the given index. -/
def utxosFrom (txID : ID) (start : Nat) (outs : List TransferableOutput) : List UTXO :=
  (outs.zipIdx start).map fun p =>
    { utxoID := { txID, outputIndex := p.2 }, assetID := p.1.assetID, out := p.1.out }

/-- `utxo.Produce`. -/
def Diff.produce (d : Diff) (txID : ID) (outs : List TransferableOutput) : Diff :=
  (utxosFrom txID 0 outs).foldl Diff.addUTXO d

end SavannahNode.PlatformVM
