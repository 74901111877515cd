import SavannahNode.ForStd.BinaryHeap
import SavannahNode.Native.PlatformBlocks

/-!
# The mempool and the block builder of the P-chain

`txheap`, `mempool` and `builder`: transactions wait in two heaps, decisions by age and
proposals by start time, until the builder takes them. The mempool counts the bytes it has
left and remembers which UTXOs its transactions consume.

A transaction's size in bytes is a parameter, like its ID. The index of a heap by transaction
ID is a search here. Metrics, the timer that triggers the next block and the errors of
marshalling are left out.
-/

namespace SavannahNode.PlatformVM

/-! ## Heaps -/

/-- `StartTime` of a `StakerTx`. -/
def UnsignedTx.startTime : UnsignedTx → Option Time
  | .addValidator tx => some tx.validator.startTime
  | .addSubnetValidator tx => some tx.validator.startTime
  | .addDelegator tx => some tx.validator.startTime
  | _ => none

/-- `InputIDs`. -/
def UnsignedTx.inputIDs : UnsignedTx → List UTXOID
  | .addValidator tx => tx.base.ins.map (·.utxoID)
  | .addSubnetValidator tx => tx.base.ins.map (·.utxoID)
  | .addDelegator tx => tx.base.ins.map (·.utxoID)
  | .createChain tx => tx.base.ins.map (·.utxoID)
  | .createSubnet tx => tx.base.ins.map (·.utxoID)
  | .importTx tx => tx.base.ins.map (·.utxoID) ++ tx.importedInputs.map (·.utxoID)
  | .exportTx tx => tx.base.ins.map (·.utxoID)
  | .advanceTime _ => []
  | .rewardValidator _ => []

/-- `heapTx`. -/
structure HeapTx where
  tx : Tx
  age : Nat
deriving DecidableEq

/-- `txHeap`. -/
structure TxHeap where
  txs : Array HeapTx
  currentAge : Nat
deriving DecidableEq

namespace TxHeap

/-- `Less` of `byAge`. -/
def byAge (x y : HeapTx) : Bool := x.age < y.age

/-- `Less` of `byStartTime`. -/
def byStartTime (x y : HeapTx) : Bool :=
  match x.tx.unsigned.startTime, y.tx.unsigned.startTime with
  | some s, some t => s < t
  | _, _ => false

variable (less : HeapTx → HeapTx → Bool)

/-- A new heap. -/
def empty : TxHeap := { txs := #[], currentAge := 0 }

/-- The transactions, in the order of the array (`List`). -/
def list (h : TxHeap) : List Tx := h.txs.toList.map (·.tx)

/-- `Get`. -/
def get (h : TxHeap) (txID : ID) : Option Tx := h.list.find? (·.id = txID)

/-- `Len`. -/
def len (h : TxHeap) : Nat := h.txs.size

/-- `Add`: a transaction that is there already is not pushed, but the last element is still
    moved up. -/
def add (h : TxHeap) (tx : Tx) : TxHeap :=
  if (h.get tx.id).isSome then
    { h with txs := BinaryHeap.up less h.txs.size h.txs (h.txs.size - 1) }
  else
    { txs := BinaryHeap.push less h.txs { tx, age := h.currentAge }, currentAge := h.currentAge + 1 }

/-- `Remove`. -/
def remove (h : TxHeap) (txID : ID) : Option (Tx × TxHeap) :=
  (h.txs.findIdx? (·.tx.id = txID)).bind fun index =>
    (BinaryHeap.remove less h.txs index).map fun p => (p.1.tx, { h with txs := p.2 })

/-- `Peek`. -/
def peek (h : TxHeap) : Option Tx := h.txs[0]?.map (·.tx)

/-- `RemoveTop`. -/
def removeTop (h : TxHeap) : Option (Tx × TxHeap) :=
  (BinaryHeap.pop less h.txs).map fun p => (p.1.tx, { h with txs := p.2 })

end TxHeap

/-! ## The mempool -/

/-- `targetTxSize`. -/
def targetTxSize : Nat := 64 * 1024

/-- `maxMempoolSize`. -/
def maxMempoolSize : Nat := 64 * 1024 * 1024

/-- `droppedTxIDsCacheSize`. -/
def droppedTxIDsCacheSize : Nat := 64

/-- The errors of `Add`. -/
inductive MempoolErr where
  | closed
  | duplicate
  | tooLarge
  | full
  | conflict
  | cantIssueAdvanceTimeTx
  | cantIssueRewardValidatorTx
deriving DecidableEq, Repr

/-- `mempool`. -/
structure Mempool where
  dropIncoming : Bool
  bytesAvailable : Int
  unissuedDecisionTxs : TxHeap
  unissuedProposalTxs : TxHeap
  /-- An `LRU` cache, the entry used last at its end. -/
  droppedTxIDs : List (ID × String)
  consumedUTXOs : Finset UTXOID
deriving DecidableEq

namespace Mempool

/-- `NewMempool`. -/
def new : Mempool :=
  { dropIncoming := false
    bytesAvailable := maxMempoolSize
    unissuedDecisionTxs := .empty
    unissuedProposalTxs := .empty
    droppedTxIDs := []
    consumedUTXOs := ∅ }

section

variable (m : Mempool) (txID : ID)

/-- `EnableAdding`. -/
def enableAdding : Mempool := { m with dropIncoming := false }

/-- `DisableAdding`. -/
def disableAdding : Mempool := { m with dropIncoming := true }

/-- `Get`. -/
def get (m : Mempool) (txID : ID) : Option Tx :=
  (m.unissuedDecisionTxs.get txID).or (m.unissuedProposalTxs.get txID)

/-- `Has`. -/
def has : Bool := (m.get txID).isSome

/-- `HasDecisionTxs`. -/
def hasDecisionTxs : Bool := m.unissuedDecisionTxs.len > 0

/-- `MarkDropped`. -/
def markDropped (reason : String) : Mempool :=
  let others := m.droppedTxIDs.filter (·.1 ≠ txID)
  { m with
    droppedTxIDs := others.drop (others.length + 1 - droppedTxIDsCacheSize) ++ [(txID, reason)] }

/-- `GetDropReason`. -/
def getDropReason : Option String × Mempool :=
  match m.droppedTxIDs.find? (·.1 = txID) with
  | some e => (some e.2, { m with droppedTxIDs := m.droppedTxIDs.filter (·.1 ≠ txID) ++ [e] })
  | none => (none, m)

end

variable (size : Tx → Nat)

variable (m : Mempool) (tx : Tx)

/-- `register`. -/
def register : Mempool :=
  { m with bytesAvailable := m.bytesAvailable - size tx }

/-- `deregister`. -/
def deregister : Mempool :=
  { m with
    bytesAvailable := m.bytesAvailable + size tx
    consumedUTXOs := m.consumedUTXOs \ tx.unsigned.inputIDs.toFinset }

/-- `AddDecisionTx`. -/
def addDecisionTx : Mempool :=
  { m with unissuedDecisionTxs := m.unissuedDecisionTxs.add TxHeap.byAge tx }.register size tx

/-- `AddProposalTx`. -/
def addProposalTx : Mempool :=
  { m with unissuedProposalTxs := m.unissuedProposalTxs.add TxHeap.byStartTime tx }.register size tx

/-- `mempoolIssuer`, visiting a transaction. -/
def issue : Except MempoolErr Mempool :=
  match tx.unsigned with
  | .advanceTime _ => .error .cantIssueAdvanceTimeTx
  | .rewardValidator _ => .error .cantIssueRewardValidatorTx
  | .addValidator _ => .ok (m.addProposalTx size tx)
  | .addSubnetValidator _ => .ok (m.addProposalTx size tx)
  | .addDelegator _ => .ok (m.addProposalTx size tx)
  | .createChain _ => .ok (m.addDecisionTx size tx)
  | .createSubnet _ => .ok (m.addDecisionTx size tx)
  | .importTx _ => .ok (m.addDecisionTx size tx)
  | .exportTx _ => .ok (m.addDecisionTx size tx)

/-- `Add`. -/
def add : Except MempoolErr Mempool := do
  Except.failIf (m.dropIncoming = true) .closed
  Except.failIf (m.has tx.id = true) .duplicate
  Except.failIf (size tx > targetTxSize) .tooLarge
  Except.failIf (size tx > m.bytesAvailable) .full
  Except.failIf (¬Disjoint m.consumedUTXOs tx.unsigned.inputIDs.toFinset) .conflict
  let m ← m.issue size tx
  .ok
    { m with
      consumedUTXOs := m.consumedUTXOs ∪ tx.unsigned.inputIDs.toFinset
      droppedTxIDs := m.droppedTxIDs.filter (·.1 ≠ tx.id) }

/-- One iteration of `RemoveDecisionTxs`. -/
def removeDecisionTx : Mempool :=
  match m.unissuedDecisionTxs.remove TxHeap.byAge tx.id with
  | some p => { m with unissuedDecisionTxs := p.2 }.deregister size tx
  | none => m

/-- `RemoveDecisionTxs`. -/
def removeDecisionTxs (txs : List Tx) : Mempool := txs.foldl (removeDecisionTx size) m

/-- `RemoveProposalTx`. -/
def removeProposalTx : Mempool :=
  match m.unissuedProposalTxs.remove TxHeap.byStartTime tx.id with
  | some p => { m with unissuedProposalTxs := p.2 }.deregister size tx
  | none => m

/-- The loop of `PopDecisionTxs`, over at most `fuel` transactions. -/
def popDecisionTxsFuel : Nat → Mempool → Nat → List Tx × Mempool
  | 0, m, _ => ([], m)
  | fuel + 1, m, maxTxsBytes =>
    match m.unissuedDecisionTxs.peek, m.unissuedDecisionTxs.removeTop TxHeap.byAge with
    | some tx, some (_, heap) =>
      if size tx > maxTxsBytes then ([], m)
      else
        let r := popDecisionTxsFuel fuel ({ m with unissuedDecisionTxs := heap }.deregister size tx)
          (maxTxsBytes - size tx)
        (tx :: r.1, r.2)
    | _, _ => ([], m)

/-- `PopDecisionTxs`. -/
def popDecisionTxs (maxTxsBytes : Nat) : List Tx × Mempool :=
  popDecisionTxsFuel size m.unissuedDecisionTxs.len m maxTxsBytes

/-- `PopProposalTx`, `none` for the panic of an empty heap. -/
def popProposalTx : Option (Tx × Mempool) :=
  (m.unissuedProposalTxs.removeTop TxHeap.byStartTime).map fun p =>
    (p.1, { m with unissuedProposalTxs := p.2 }.deregister size p.1)

end Mempool

/-! ## The builder -/

/-- `mockable.MaxTime`. -/
def maxTime : Time := Time.unix (2 ^ 63 - 62135596801)

/-- `targetBlockSize`. -/
def targetBlockSize : Nat := 128 * 1024

/-- The errors of `BuildBlock`. -/
inductive BuildErr where
  | endOfTime
  | noStakers
  | noPendingBlocks
  /-- The panic of a pop from an empty heap, or of a proposal that is no `StakerTx`. -/
  | notAStakerTx
deriving DecidableEq, Repr

/-- `getNextStakerToReward`. -/
def getNextStakerToReward (preferredState : Chain) : Except BuildErr (ID × Bool) :=
  if ¬preferredState.timestamp < maxTime then .error .endOfTime
  else
    match preferredState.current.stakers.find? fun s =>
      s.priority = primaryNetworkDelegatorCurrentPriority ∨
        s.priority = primaryNetworkValidatorCurrentPriority with
    | some s => .ok (s.txID, preferredState.timestamp = s.endTime)
    | none => .ok (ID.empty, false)

/-- `getNextChainTime`. -/
def getNextChainTime (now : Time) (preferredState : Chain) : Except BuildErr (Time × Bool) := do
  let nextStakerChangeTime ← Except.ofOption .noStakers (getNextStakerChangeTime preferredState)
  .ok (nextStakerChangeTime, ¬now < nextStakerChangeTime)

section Builder

variable (size : Tx → Nat) (sign : UnsignedTx → Tx)

/-- The loop of `dropTooEarlyMempoolProposalTxs`, over at most `fuel` transactions. `reason` is
    the text a transaction is dropped with. -/
def dropTooEarlyFuel (syncTime : Time) (reason : Time → String) : Nat → Mempool → Bool × Mempool
  | 0, m => (false, m)
  | fuel + 1, m =>
    match m.popProposalTx size with
    | none => (false, m)
    | some (tx, m) =>
      match tx.unsigned.startTime with
      | none => (false, m)
      | some startTime =>
        if ¬startTime < syncTime then (true, m.addProposalTx size tx)
        else dropTooEarlyFuel syncTime reason fuel (m.markDropped tx.id (reason startTime))

variable (now : Time) (reason : Time → String) (preferredState : Chain) (m : Mempool)

/-- `dropTooEarlyMempoolProposalTxs`. -/
def dropTooEarlyMempoolProposalTxs : Bool × Mempool :=
  dropTooEarlyFuel size (Time.add now syncBound) reason m.unissuedProposalTxs.len m

/-- The last part of `BuildBlock`: a proposal from the mempool. -/
def buildProposal : Except BuildErr BlockBody × Mempool :=
  let (hasProposalTxs, m) := dropTooEarlyMempoolProposalTxs size now reason m
  if ¬hasProposalTxs then (.error .noPendingBlocks, m)
  else
    match m.popProposalTx size with
    | none => (.error .notAStakerTx, m)
    | some (tx, m) =>
      match tx.unsigned.startTime with
      | none => (.error .notAStakerTx, m)
      | some startTime =>
        if startTime > Time.add preferredState.timestamp maxFutureStartTime then
          (.ok (.proposal (sign (.advanceTime (Time.unixSeconds now)))), m.addProposalTx size tx)
        else (.ok (.proposal tx), m)

/-- `BuildBlock` while the mempool is closed. -/
def buildBody : Except BuildErr BlockBody × Mempool :=
  if m.hasDecisionTxs then
    let (txs, m) := m.popDecisionTxs size targetBlockSize
    (.ok (.standard txs), m)
  else
    match getNextStakerToReward preferredState with
    | .error e => (.error e, m)
    | .ok (stakerTxID, true) => (.ok (.proposal (sign (.rewardValidator stakerTxID))), m)
    | .ok (_, false) =>
      match getNextChainTime now preferredState with
      | .error e => (.error e, m)
      | .ok (nextChainTime, true) =>
        (.ok (.proposal (sign (.advanceTime (Time.unixSeconds nextChainTime)))), m)
      | .ok (_, false) => buildProposal size sign now reason preferredState m

/-- `BuildBlock`: the body of the block on top of the preferred one, and the mempool after. -/
def buildBlock : Except BuildErr BlockBody × Mempool :=
  let (body, m) := buildBody size sign now reason preferredState m.disableAdding
  (body, m.enableAdding)

end Builder

end SavannahNode.PlatformVM
