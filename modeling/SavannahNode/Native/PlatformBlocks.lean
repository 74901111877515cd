import SavannahNode.Native.PlatformStore

/-!
# Verifying, accepting and rejecting blocks

The block executor of the P-chain (`vms/platformvm/blocks/executor`). A block that has been
verified is kept with the diff it would apply when accepted, a proposal block with the two
diffs of its options; a diff finds its parent state by the parent's ID when it is read.
Accepting a block applies its diff to the base state, writes it, and applies its requests to
shared memory.

A diff whose parent state is gone can still be read where it has an entry itself. The mempool,
metrics and the functions called on acceptance are left out.
-/

namespace SavannahNode.PlatformVM

open Except

/-- The part of `atomic.SharedMemory` the P-chain sees: the UTXOs it can import by source
    chain, and a record of the UTXOs it has exported and imported, those with their keys. -/
structure SharedMemory where
  inbound : ID → UTXOID → Option UTXO
  puts : List (ID × UTXO)
  taken : List ((ID × UTXOID) × UTXO)

namespace SharedMemory

/-- Take a UTXO. -/
def remove (m : SharedMemory) (peerChainID : ID) (utxoID : UTXOID) : SharedMemory :=
  { m with
    inbound := Function.update m.inbound peerChainID
      (Function.update (m.inbound peerChainID) utxoID none)
    taken := m.taken ++
      ((m.inbound peerChainID utxoID).map fun utxo => ((peerChainID, utxoID), utxo)).toList }

/-- The requests for one chain. -/
def applyRequests (m : SharedMemory) (peerChainID : ID) (r : Requests) : SharedMemory :=
  let m := r.removes.foldl (fun m utxoID => m.remove peerChainID utxoID) m
  { m with puts := m.puts ++ r.puts.map fun utxo => (peerChainID, utxo) }

/-- `SharedMemory.Apply`. -/
def apply (order : RangeOrder ID) (m : SharedMemory) (requests : IDMap Requests) : SharedMemory :=
  (RangeOrder.entries order requests).foldl (fun m p => m.applyRequests p.1 p.2) m

end SharedMemory

/-- `blockState`. -/
structure BlockState where
  statelessBlock : Block
  onAcceptState : Option Diff
  onCommitState : Option Diff
  onAbortState : Option Diff
  initiallyPreferCommit : Bool
  inputs : List UTXOID
  atomicRequests : IDMap Requests
  timestamp : Time

/-- `manager`, with the shared memory of the node. -/
structure BlockManager where
  lastAccepted : ID
  blkIDToState : IDMap BlockState
  state : State
  memory : SharedMemory

namespace BlockManager

/-- `GetState`: the diff of a block, or the base state. -/
def getState (m : BlockManager) (blkID : ID) : Option (Diff ⊕ State) :=
  match m.blkIDToState.lookup blkID with
  | some blkState => blkState.onAcceptState.map .inl
  | none => if blkID = m.state.lastAccepted then some (.inr m.state) else none

/-- What is read from a state, through at most `fuel` diffs. -/
def readFuel (m : BlockManager) (orphaned : ID → Option Chain) : Nat → Diff ⊕ State → Option Chain
  | _, .inr s => some s.read
  | 0, .inl _ => none
  | fuel + 1, .inl d =>
    (match m.getState d.parentID with
    | some parentState => m.readFuel orphaned fuel parentState
    | none => orphaned d.parentID).map d.read

variable (whitelistedSubnets : Finset ID) (orders : Orders) (m : BlockManager) (blk : Block)

/-- What is read from the state that `GetState` returns. -/
def readState (env : Env) (blkID : ID) : Option Chain :=
  (m.getState blkID).bind (m.readFuel env.orphaned (m.blkIDToState.keys.card + 1))

/-- `GetBlock`. -/
def getBlock (blkID : ID) : Option Block :=
  match m.blkIDToState.lookup blkID with
  | some blkState => some blkState.statelessBlock
  | none => (m.state.blocks.lookup blkID).map (·.1)

/-- `free`. -/
def free (blkID : ID) : BlockManager :=
  { m with blkIDToState := m.blkIDToState.erase blkID }

/-! ## Verification -/

/-- `verifyCommonBlock`. -/
def verifyCommonBlock : Except Err Unit := do
  let parent ← ofOption .missingBlock (m.getBlock blk.parent)
  failIf (parent.height + 1 ≠ blk.height) .wrongHeight

/-- The loop of `verifyUniqueInputs`, over at most `fuel` ancestors. -/
def verifyUniqueInputsFuel (m : BlockManager) (inputs : List UTXOID) : Nat → Block → Except Err Unit
  | 0, _ => .ok ()
  | fuel + 1, block =>
    match m.blkIDToState.lookup block.parent with
    | none => .ok ()
    | some parentState => do
      failIf (∃ id ∈ parentState.inputs, id ∈ inputs) .conflictingParentTxs
      m.verifyUniqueInputsFuel inputs fuel parentState.statelessBlock

section

variable (b : Backend) (env : Env) (m : BlockManager) (blk : Block) (tx : Tx)

/-- `verifyUniqueInputs`. -/
def verifyUniqueInputs (block : Block) (inputs : List UTXOID) : Except Err Unit :=
  if inputs = [] then .ok ()
  else m.verifyUniqueInputsFuel inputs (m.blkIDToState.keys.card + 1) block

/-- The state of a standard block while its transactions are executed. -/
structure Batch where
  state : Diff
  inputs : List UTXOID
  atomicRequests : IDMap Requests

/-- Add the requests of a transaction to those of its block. -/
def mergeRequests (requests : IDMap Requests) : Option (ID × Requests) → IDMap Requests
  | none => requests
  | some (chainID, r) =>
    match requests.lookup chainID with
    | none => requests.insert chainID r
    | some chainRequests => requests.insert chainID
        { puts := chainRequests.puts ++ r.puts, removes := chainRequests.removes ++ r.removes }

/-- One transaction of a standard block. -/
def batchTx (parent : Chain) (batch : Batch) (tx : Tx) : Except Err Batch := do
  let e ← standardTx b env parent batch.state tx
  failIf (∃ id ∈ e.inputs, id ∈ batch.inputs) .conflictingBatchTxs
  .ok
    { state := e.state.addTx tx .committed
      inputs := batch.inputs ++ e.inputs
      atomicRequests := mergeRequests batch.atomicRequests e.atomicRequests }

/-- The transactions of a standard block. -/
def batchTxs (parentID : ID) (parent : Chain) (txs : List Tx) : Except Err Batch :=
  txs.foldlM (batchTx b env parent)
    { state := Diff.new parentID parent, inputs := [], atomicRequests := ∅ }

/-- `verifier.ProposalBlock`. -/
def verifyProposal : Except Err BlockState := do
  let p ← proposalTx b env blk.parent (m.readState env blk.parent) tx
  .ok
    { statelessBlock := blk
      onAcceptState := none
      onCommitState := some (p.onCommit.addTx tx .committed)
      onAbortState := some (p.onAbort.addTx tx .aborted)
      initiallyPreferCommit := p.prefersCommit
      inputs := []
      atomicRequests := ∅
      timestamp := p.onAbort.timestamp }

/-- `verifier.AtomicBlock`. -/
def verifyAtomic : Except Err BlockState := do
  let parent ← ofOption .missingParentState (m.readState env blk.parent)
  failIf (¬parent.timestamp < b.config.apricotPhase5Time) .atomicAfterApricotPhase5
  let e ← atomicTx b env parent tx blk.parent
  m.verifyUniqueInputs blk e.inputs
  .ok
    { statelessBlock := blk
      onAcceptState := some (e.state.addTx tx .committed)
      onCommitState := none
      onAbortState := none
      initiallyPreferCommit := false
      inputs := e.inputs
      atomicRequests := mergeRequests ∅ e.atomicRequests
      timestamp := e.state.timestamp }

/-- `verifier.StandardBlock`. -/
def verifyStandard (txs : List Tx) : Except Err BlockState := do
  let parent ← ofOption .missingParentState (m.readState env blk.parent)
  let batch ← batchTxs b env blk.parent parent txs
  m.verifyUniqueInputs blk batch.inputs
  .ok
    { statelessBlock := blk
      onAcceptState := some batch.state
      onCommitState := none
      onAbortState := none
      initiallyPreferCommit := false
      inputs := batch.inputs
      atomicRequests := batch.atomicRequests
      timestamp := batch.state.timestamp }

/-- `verifier.CommitBlock` and `verifier.AbortBlock`, with the diff of the parent they take. -/
def verifyOption (option : BlockState → Option Diff) : Except Err BlockState := do
  let parentState ← ofOption .missingBlockState (m.blkIDToState.lookup blk.parent)
  let onAcceptState ← ofOption .nilDiff (option parentState)
  .ok
    { statelessBlock := blk
      onAcceptState := some onAcceptState
      onCommitState := none
      onAbortState := none
      initiallyPreferCommit := false
      inputs := []
      atomicRequests := ∅
      timestamp := onAcceptState.timestamp }

/-- The state of a block that is verified. -/
def verifyBody : Except Err BlockState :=
  match blk.body with
  | .proposal tx => verifyProposal b env m blk tx
  | .atomic tx => verifyAtomic b env m blk tx
  | .standard txs => verifyStandard b env m blk txs
  | .commit => m.verifyOption blk (·.onCommitState)
  | .abort => m.verifyOption blk (·.onAbortState)

/-- `Block.Verify`. The shared memory in `env` is that of the node. -/
def verify : Except Err BlockManager :=
  if (m.blkIDToState.lookup blk.id).isSome then .ok m
  else do
    m.verifyCommonBlock blk
    let blkState ← verifyBody b { env with memory := m.memory.inbound } m blk
    .ok { m with blkIDToState := m.blkIDToState.insert blk.id blkState }

end

/-! ## Acceptance -/

/-- `commonAccept`. -/
def commonAccept : BlockManager :=
  { m with
    lastAccepted := blk.id
    state := { m.state with lastAccepted := blk.id, currentHeight := blk.height }.addStatelessBlock
      blk .accepted }

/-- Apply the diff of a block to the state and write it. -/
def commit (d : Diff) : Except Err BlockManager := do
  let state ← ofOption .overflow ((d.apply orders m.state).write whitelistedSubnets orders)
  .ok { m with state }

/-- `acceptor.AtomicBlock` and `acceptor.StandardBlock`. -/
def acceptDecision : Except Err BlockManager := do
  let m := m.commonAccept blk
  let blkState ← ofOption .missingBlockState (m.blkIDToState.lookup blk.id)
  let onAcceptState ← ofOption .nilDiff blkState.onAcceptState
  let m ← m.commit whitelistedSubnets orders onAcceptState
  .ok ({ m with memory := m.memory.apply orders.ids blkState.atomicRequests }.free blk.id)

/-- `acceptor.CommitBlock` and `acceptor.AbortBlock`. -/
def acceptOption : Except Err BlockManager := do
  let parentState ← ofOption .missingBlockState (m.blkIDToState.lookup blk.parent)
  let m := (m.commonAccept parentState.statelessBlock).commonAccept blk
  let blkState ← ofOption .missingBlockState (m.blkIDToState.lookup blk.id)
  let onAcceptState ← ofOption .nilDiff blkState.onAcceptState
  let m ← m.commit whitelistedSubnets orders onAcceptState
  .ok ((m.free blk.parent).free blk.id)

/-- `Block.Accept`. -/
def accept : Except Err BlockManager :=
  match blk.body with
  | .proposal _ => .ok { m with lastAccepted := blk.id }
  | .atomic _ => m.acceptDecision whitelistedSubnets orders blk
  | .standard _ => m.acceptDecision whitelistedSubnets orders blk
  | .commit => m.acceptOption whitelistedSubnets orders blk
  | .abort => m.acceptOption whitelistedSubnets orders blk

/-- `Block.Reject`. -/
def reject : Except Err BlockManager := do
  let state ← ofOption .overflow
    ((m.state.addStatelessBlock blk .rejected).write whitelistedSubnets orders)
  .ok ({ m with state }.free blk.id)

end BlockManager

end SavannahNode.PlatformVM
