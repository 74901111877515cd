import Mathlib.Data.Nat.Pairing
import SavannahNode.Native.TxExecutor

/-!
# The base state of the P-chain

`state` of `vms/platformvm/state/state.go`: the state of the last accepted block, the genesis
it starts from, `diff.Apply`, and the `write` that ends the acceptance of a block. What the
source keeps once in memory and once in the database (transactions, UTXOs, reward UTXOs) is
one map here. The lists of subnets and chains are kept as the source keeps them, because
their order depends on it: a `linkeddb` lists the newest key first, a list that has been
loaded is extended at its end.

`write` also updates the validator sets that other components see (`validators.Manager`) and
records by how much it changed the weight of each node at the height of the block.
-/

namespace SavannahNode

/-- Visit UTXO IDs as ascending numbers: one of the orders in which Go may range. -/
def RangeOrder.utxoIDs : RangeOrder PlatformVM.UTXOID :=
  .ascending (fun id => Nat.pair id.txID.toBits.toNat id.outputIndex) (by
    rintro ⟨⟨a⟩, i⟩ ⟨⟨b⟩, j⟩ h
    obtain ⟨hid, hindex⟩ := Nat.pair_eq_pair.mp h
    obtain rfl : a = b := BitVec.eq_of_toNat_eq hid
    obtain rfl : i = j := hindex
    rfl)

namespace PlatformVM

/-! ## Validator sets -/

/-- A `validators.Set`: the weights that are not zero. -/
abbrev ValidatorSet := Finmap fun _ : NodeID => Nat

namespace ValidatorSet

/-- The weight of a node, zero if it is not in the set. -/
def weight (s : ValidatorSet) (nodeID : NodeID) : Nat := (s.lookup nodeID).getD 0

/-- `set.AddWeight`. -/
def addWeight (s : ValidatorSet) (nodeID : NodeID) (weight : Nat) : ValidatorSet :=
  if weight = 0 then s else s.insert nodeID (min maxUint64 (s.weight nodeID + weight))

/-- `set.RemoveWeight`. -/
def removeWeight (s : ValidatorSet) (nodeID : NodeID) (weight : Nat) : ValidatorSet :=
  if s.weight nodeID - weight = 0 then s.erase nodeID
  else s.insert nodeID (s.weight nodeID - weight)

end ValidatorSet

/-- `validators.Manager`: the validator sets by subnet. -/
abbrev Manager := IDMap ValidatorSet

namespace Manager

/-- `manager.AddWeight`. -/
def addWeight (m : Manager) (subnetID : ID) (nodeID : NodeID) (weight : Nat) : Manager :=
  m.insert subnetID (((m.lookup subnetID).getD ∅).addWeight nodeID weight)

/-- `manager.RemoveWeight`. -/
def removeWeight (m : Manager) (subnetID : ID) (nodeID : NodeID) (weight : Nat) : Manager :=
  match m.lookup subnetID with
  | some vdrs => m.insert subnetID (vdrs.removeWeight nodeID weight)
  | none => m

end Manager

/-- `ValidatorWeightDiff`. -/
structure ValidatorWeightDiff where
  decrease : Bool
  amount : Nat
deriving DecidableEq, Repr

/-- `ValidatorWeightDiff.Add`, `none` for an overflow. -/
def ValidatorWeightDiff.add (v : ValidatorWeightDiff) (negative : Bool) (amount : Nat) :
    Option ValidatorWeightDiff :=
  if v.decrease = negative then
    (add64 v.amount amount).map fun amount => { v with amount }
  else if v.amount > amount then some { v with amount := v.amount - amount }
  else some { decrease := negative, amount := diff64 v.amount amount }

/-! ## The state -/

/-- A block, by what its transactions are executed as. -/
inductive BlockBody where
  | proposal (tx : Tx)
  | atomic (tx : Tx)
  | standard (txs : List Tx)
  | commit
  | abort
deriving DecidableEq

/-- `blocks.Block`. -/
structure Block where
  id : ID
  parent : ID
  height : Nat
  body : BlockBody
deriving DecidableEq

/-- `state`. -/
structure State where
  lastAccepted : ID
  currentHeight : Nat
  timestamp : Time
  currentSupply : Nat
  currentStakers : BaseStakers
  pendingStakers : BaseStakers
  txs : IDMap (Tx × TxStatus)
  rewardUTXOs : IDMap (List UTXO)
  utxos : Finmap fun _ : UTXOID => UTXO
  /-- `none` if the subnets have not been loaded, or if there were none. -/
  cachedSubnets : Option (List Tx)
  addedSubnets : List Tx
  /-- The keys of the `linkeddb`, in the order of its iterator. -/
  subnetDB : List ID
  chainCache : IDMap (List Tx)
  addedChains : IDMap (List Tx)
  chainDB : IDMap (List ID)
  blocks : IDMap (Block × Status)
  /-- The weight changes by height and subnet. -/
  validatorDiffs : Finmap fun _ : Nat × ID => Finmap fun _ : NodeID => ValidatorWeightDiff
  validators : Manager

/-- The orders in which `Apply` and `write` range over maps. -/
structure Orders where
  slots : RangeOrder (ID × NodeID)
  ids : RangeOrder ID
  utxoIDs : RangeOrder UTXOID

/-- `linkeddb.Put` of a key: a new key is added at the head. -/
def linkedPut (keys : List ID) (key : ID) : List ID := if key ∈ keys then keys else key :: keys

namespace State

/-- `newState`. -/
def empty (validators : Manager) : State :=
  { lastAccepted := ID.empty
    currentHeight := 0
    timestamp := 0
    currentSupply := 0
    currentStakers := .empty
    pendingStakers := .empty
    txs := ∅
    rewardUTXOs := ∅
    utxos := ∅
    cachedSubnets := none
    addedSubnets := []
    subnetDB := []
    chainCache := ∅
    addedChains := ∅
    chainDB := ∅
    blocks := ∅
    validatorDiffs := ∅
    validators }

variable (s : State) (subnetID : ID)

/-- The transactions of the keys of a `linkeddb`. -/
def listTxs (keys : List ID) : List Tx := keys.filterMap fun id => (s.txs.lookup id).map (·.1)

/-- `GetSubnets`. -/
def getSubnets : List Tx := s.cachedSubnets.getD (s.listTxs s.subnetDB ++ s.addedSubnets)

/-- `GetChains`. -/
def getChains : List Tx :=
  (s.chainCache.lookup subnetID).getD
    (s.listTxs ((s.chainDB.lookup subnetID).getD []) ++ (s.addedChains.lookup subnetID).getD [])

/-- The getters. -/
def read (s : State) : Chain :=
  { timestamp := s.timestamp
    currentSupply := s.currentSupply
    current := s.currentStakers.read
    pending := s.pendingStakers.read
    tx := s.txs.lookup
    rewardUTXOs := fun txID => (s.rewardUTXOs.lookup txID).getD []
    utxo := s.utxos.lookup
    subnets := s.getSubnets
    chains := s.getChains }

/-- `AddSubnet`. -/
def addSubnet (createSubnetTx : Tx) : State :=
  { s with
    addedSubnets := s.addedSubnets ++ [createSubnetTx]
    cachedSubnets := s.cachedSubnets.map (· ++ [createSubnetTx]) }

/-- `AddChain`. -/
def addChain (createChainTx : Tx) : State :=
  { s with
    addedChains := s.addedChains.insert subnetID
      ((s.addedChains.lookup subnetID).getD [] ++ [createChainTx])
    chainCache := match s.chainCache.lookup subnetID with
      | some chains => s.chainCache.insert subnetID (chains ++ [createChainTx])
      | none => s.chainCache }

/-- `AddTx`. -/
def addTx (tx : Tx) (status : TxStatus) : State :=
  { s with txs := s.txs.insert tx.id (tx, status) }

/-- `AddRewardUTXO`. -/
def addRewardUTXO (txID : ID) (utxo : UTXO) : State :=
  { s with rewardUTXOs := s.rewardUTXOs.insert txID ((s.rewardUTXOs.lookup txID).getD [] ++ [utxo]) }

/-- `AddUTXO` and `DeleteUTXO`. -/
def modifyUTXO (utxoID : UTXOID) (utxo : Option UTXO) : State :=
  { s with utxos := match utxo with
      | some utxo => s.utxos.insert utxoID utxo
      | none => s.utxos.erase utxoID }

/-- `AddStatelessBlock`. -/
def addStatelessBlock (block : Block) (status : Status) : State :=
  { s with blocks := s.blocks.insert block.id (block, status) }

end State

/-- The entries of a map in the order of a range. -/
def RangeOrder.entries {α β : Type} [DecidableEq α] (order : RangeOrder α)
    (m : Finmap fun _ : α => β) : List (α × β) :=
  (order.list m.keys).filterMap fun k => (m.lookup k).map fun v => (k, v)

/-- `diff.Apply`. -/
def Diff.apply (orders : Orders) (d : Diff) (s : State) : State :=
  let s := { s with timestamp := d.timestamp, currentSupply := d.currentSupply }
  let s := { s with
    currentStakers := d.currentStakerDiffs.apply orders.slots orders.ids s.currentStakers
    pendingStakers := d.pendingStakerDiffs.apply orders.slots orders.ids s.pendingStakers }
  let s := d.addedSubnets.foldl State.addSubnet s
  let s := (RangeOrder.entries orders.ids d.addedChains).foldl
    (fun s p => p.2.foldl (fun s tx => s.addChain p.1 tx) s) s
  let s := (RangeOrder.entries orders.ids d.addedTxs).foldl (fun s p => s.addTx p.2.1 p.2.2) s
  let s := (RangeOrder.entries orders.ids d.addedRewardUTXOs).foldl
    (fun s p => p.2.foldl (fun s utxo => s.addRewardUTXO p.1 utxo) s) s
  (RangeOrder.entries orders.utxoIDs d.modifiedUTXOs).foldl (fun s p => s.modifyUTXO p.1 p.2) s

/-! ## Writing -/

/-- The weight change of one node: of its validator and, on the primary network, of its
    delegators. -/
def weightDiff (order : RangeOrder ID) (subnetID : ID) (d : DiffValidator) :
    Option ValidatorWeightDiff := do
  let weightDiff : ValidatorWeightDiff :=
    if d.validatorModified then
      { decrease := d.validatorDeleted, amount := (d.validator.map (·.weight)).getD 0 }
    else { decrease := false, amount := 0 }
  if subnetID = primaryNetworkID then
    let weightDiff ← d.addedDelegators.foldlM (fun w s => w.add false s.weight) weightDiff
    (RangeOrder.entries order d.deletedDelegators).foldlM (fun w p => w.add true p.2.weight) weightDiff
  else some weightDiff

namespace State

variable (whitelistedSubnets : Finset ID) (orders : Orders) (s : State) (height : Nat)

/-- Record the weight change of one node, unless it is zero. -/
def putWeightDiff (slot : ID × NodeID) (w : ValidatorWeightDiff) : State :=
  if w.amount = 0 then s
  else
    { s with
      validatorDiffs := s.validatorDiffs.insert (height, slot.1)
        (((s.validatorDiffs.lookup (height, slot.1)).getD ∅).insert slot.2 w) }

/-- Apply the weight change of one node to the validator sets. -/
def updateManager (slot : ID × NodeID) (w : ValidatorWeightDiff) : State :=
  if w.amount ≠ 0 ∧ (slot.1 = primaryNetworkID ∨ slot.1 ∈ whitelistedSubnets) then
    { s with
      validators :=
        if w.decrease then s.validators.removeWeight slot.1 slot.2 w.amount
        else s.validators.addWeight slot.1 slot.2 w.amount }
  else s

/-- `writeCurrentPrimaryNetworkStakers` and `writeCurrentSubnetStakers`. -/
def writeCurrentStakers : Option State := do
  let s ← (RangeOrder.entries orders.slots s.currentStakers.validatorDiffs).foldlM
    (fun s p => (weightDiff orders.ids p.1.1 p.2).map fun w =>
      (s.putWeightDiff height p.1 w).updateManager whitelistedSubnets p.1 w) s
  some { s with currentStakers := { s.currentStakers with validatorDiffs := ∅ } }

/-- `writeSubnets`. -/
def writeSubnets : State :=
  { s with
    subnetDB := (s.addedSubnets.map (·.id)).foldl linkedPut s.subnetDB
    addedSubnets := [] }

/-- `writeChains`. -/
def writeChains : State :=
  { s with
    chainDB := (RangeOrder.entries orders.ids s.addedChains).foldl
      (fun db p => db.insert p.1 ((p.2.map (·.id)).foldl linkedPut ((db.lookup p.1).getD []))) s.chainDB
    addedChains := ∅ }

/-- `write`, `none` for an overflow of a weight change. -/
def write : Option State := do
  let s ← s.writeCurrentStakers whitelistedSubnets orders s.currentHeight
  let s := { s with pendingStakers := { s.pendingStakers with validatorDiffs := ∅ } }
  some (s.writeSubnets.writeChains orders)

end State

/-! ## Genesis -/

/-- `genesis.State`. -/
structure Genesis where
  utxos : List UTXO
  validators : List Tx
  chains : List Tx
  timestamp : Nat
  initialSupply : Nat

namespace State

/-- One validator of the genesis. -/
def addGenesisValidator (rewards : RewardConfig) (s : State) (vdrTx : Tx) : Except Err State :=
  match vdrTx.unsigned with
  | .addValidator tx => do
    let potentialReward := rewards.calculate tx.validator.duration tx.validator.wght s.currentSupply
    let newCurrentSupply ← Except.ofOption .overflow (add64 s.currentSupply potentialReward)
    let staker := { newPrimaryNetworkStaker vdrTx.id tx.validator tx.validator.endTime
      primaryNetworkValidatorCurrentPriority with potentialReward }
    let s := { s with currentStakers := s.currentStakers.putValidator staker }
    let s := s.addTx vdrTx .committed
    .ok { s with currentSupply := newCurrentSupply }
  | _ => .error .wrongTxType

/-- One chain of the genesis. -/
def addGenesisChain (ctx : Context) (s : State) (chain : Tx) : Except Err State :=
  match chain.unsigned with
  | .createChain tx => do
    Except.failIf (tx.base.networkID ≠ ctx.networkID) .wrongNetworkID
    .ok ((s.addChain tx.subnetID chain).addTx chain .committed)
  | _ => .error .wrongTxType

/-- `syncGenesis`, without the last write. -/
def syncGenesis (b : Backend) (s : State) (genesisBlk : Block) (genesis : Genesis) :
    Except Err State := do
  let s := { s with
    lastAccepted := genesisBlk.id
    timestamp := Time.unix genesis.timestamp
    currentSupply := genesis.initialSupply }
  let s := s.addStatelessBlock genesisBlk .accepted
  let s := genesis.utxos.foldl (fun s utxo => s.modifyUTXO utxo.utxoID (some utxo)) s
  let s ← genesis.validators.foldlM (addGenesisValidator b.config.rewardConfig) s
  genesis.chains.foldlM (addGenesisChain b.ctx) s

end State

end PlatformVM

end SavannahNode
