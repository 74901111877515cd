import SavannahNode.Native.Choices
import SavannahNode.Native.Snowball

/-!
# Snowstorm consensus

`snowstorm.Directed` decides conflicting transactions with a graph whose edges point from
the less to the more preferred of two conflicting transactions
(`snow/consensus/snowstorm/directed.go`, `acceptor.go`, `rejector.go`, `snowball.go` and
`snow/events/blocker.go`). Methods return the new state. A Go pointer to an acceptor or a
rejector is its position in the list of those created so far. A node is stored under its
transaction's ID, so that ID stands for the pointer to the node.

A nil `*directedTx` that Go would dereference is the fault `nilNode`. The recursion of
`accept` and `reject` through the blockers runs on fuel: every call removes a transaction
from the graph, so one more than the number of transactions is enough. Callbacks return no
error, so `errs` stays empty and is left out, as are metrics, logging and health checks.
-/

namespace SavannahNode.Snowstorm

/-- What consensus reads of a transaction, the interface `snowstorm.Tx`. A transaction
    without a whitelist has `none`. -/
structure Tx where
  id : ID
  inputIDs : List ID
  dependencies : List ID
  whitelist : Option (Finset ID)
deriving DecidableEq

/-- `snowball`. -/
structure Snowball where
  numSuccessfulPolls : Nat
  confidence : Nat
  lastVote : Nat
  rogue : Bool
deriving DecidableEq

namespace Snowball

/-- The zero value `snowball{}`. -/
def zero : Snowball := { numSuccessfulPolls := 0, confidence := 0, lastVote := 0, rogue := false }

/-- `recordSuccessfulPoll`. -/
def recordSuccessfulPoll (sb : Snowball) (currentVote : Nat) : Snowball :=
  -- without a vote in the last poll, the confidence should have been reset then
  let confidence := if sb.lastVote + 1 ≠ currentVote then 0 else sb.confidence
  { sb with
    lastVote := currentVote
    numSuccessfulPolls := sb.numSuccessfulPolls + 1
    confidence := confidence + 1 }

/-- `finalized`. -/
def finalized (sb : Snowball) (betaVirtuous betaRogue : Int) : Bool :=
  (!sb.rogue && decide (betaVirtuous ≤ sb.confidence)) || decide (betaRogue ≤ sb.confidence)

end Snowball

/-- `directedTx`: a transaction in the conflict graph. -/
structure DirectedTx extends Snowball where
  pendingAccept : Bool
  ins : Finset ID
  outs : Finset ID
  tx : Tx

/-- A node that was just created. -/
def DirectedTx.new (tx : Tx) : DirectedTx :=
  { Snowball.zero with pendingAccept := false, ins := ∅, outs := ∅, tx }

/-! ## Blockers -/

/-- `acceptor`. -/
structure Acceptor where
  deps : Finset ID
  rejected : Bool
  txID : ID

/-- `rejector`. Its dependencies are read only when it is registered. -/
structure Rejector where
  rejected : Bool
  txID : ID

/-- `events.Blocker`: pointers to the objects blocking on each ID. -/
abbrev Blocker := IDMap (List Nat)

/-- The objects blocking on an ID. -/
def Blocker.blocking (b : Blocker) (id : ID) : List Nat := (b.lookup id).getD []

/-- The loop of `Blocker.Register` over the dependencies. -/
def Blocker.register (b : Blocker) (deps : List ID) (pending : Nat) : Blocker :=
  deps.foldl (fun b pendingID => b.insert pendingID (b.blocking pendingID ++ [pending])) b

/-! ## The conflict graph -/

/-- `Directed`. -/
structure Directed where
  params : Parameters
  preferences : Finset ID
  virtuous : Finset ID
  virtuousVoting : Finset ID
  pollNumber : Nat
  pendingAccept : Blocker
  pendingReject : Blocker
  acceptors : List Acceptor
  rejectors : List Rejector
  txs : IDMap DirectedTx
  utxos : IDMap (Finset ID)
  whitelists : IDMap (Finset ID)
  decidables : Decidables

/-- How an operation can fail to return. -/
inductive Fault where
  | nilNode (id : ID)
  | outOfFuel
deriving DecidableEq, Repr

namespace Directed

section

variable (dg : Directed) (order : RangeOrder ID) (dependencies : Tx → List ID)

/-- `Initialize`. `status` is what the transactions report when consensus starts. -/
def init (params : Parameters) (status : ID → Status) : Except String Directed :=
  match params.verify with
  | some err => .error err
  | none =>
    .ok {
      params
      preferences := ∅
      virtuous := ∅
      virtuousVoting := ∅
      pollNumber := 0
      pendingAccept := ∅
      pendingReject := ∅
      acceptors := []
      rejectors := []
      txs := ∅
      utxos := ∅
      whitelists := ∅
      decidables := { status, calls := [] } }

/-- The node `dg.txs[id]`, which must not be nil. -/
def node (dg : Directed) (id : ID) : Except Fault DirectedTx :=
  match dg.txs.lookup id with
  | none => .error (.nilNode id)
  | some node => .ok node

/-- `Issued`. -/
def issued (tx : Tx) : Bool := (dg.decidables.status tx.id).decided || (dg.txs.lookup tx.id).isSome

/-- The transactions that spend an input. -/
def spenders (inputID : ID) : Finset ID := (dg.utxos.lookup inputID).getD ∅

/-- `IsVirtuous`. -/
def isVirtuous (tx : Tx) : Bool :=
  match dg.txs.lookup tx.id with
  | some node => !node.rogue
  | none => tx.inputIDs.all fun utxoID => (dg.utxos.lookup utxoID).isNone

/-- `Conflicts`. -/
def conflicts (dg : Directed) (tx : Tx) : Finset ID :=
  match dg.txs.lookup tx.id with
  | some node => node.ins ∪ node.outs
  | none => tx.inputIDs.foldl (fun conflicts inputID => conflicts ∪ dg.spenders inputID) ∅

/-! ## Rejecting -/

/-- The loop of `reject` over the inputs: the transaction is no longer an option for
    consuming them. -/
def unspend (conflictKey : ID) (inputIDs : List ID) : Directed :=
  inputIDs.foldl (fun dg inputID =>
    match dg.utxos.lookup inputID with
    | none => dg -- removed due to the acceptance of a transaction
    | some txIDs =>
      let txIDs := txIDs.erase conflictKey
      { dg with
        whitelists := dg.whitelists.erase conflictKey
        utxos := if txIDs = ∅ then dg.utxos.erase inputID else dg.utxos.insert inputID txIDs }) dg

/-- `removeConflict`: remove the edges between a transaction and its neighbors. -/
def removeConflict (txIDKey : ID) (neighborIDs : List ID) : Directed :=
  neighborIDs.foldl (fun dg neighborID =>
    match dg.txs.lookup neighborID with
    | none => dg -- already rejected
    | some neighbor =>
      let neighbor := { neighbor with
        ins := neighbor.ins.erase txIDKey, outs := neighbor.outs.erase txIDKey }
      { dg with
        txs := dg.txs.insert neighborID neighbor
        preferences := if neighbor.outs = ∅ then insert neighborID dg.preferences
          else dg.preferences }) dg

/-- `Blocker.Abandon` of the acceptors. -/
def abandonAcceptors (id : ID) : Directed :=
  (dg.pendingAccept.blocking id).foldl (fun dg p =>
      { dg with acceptors := dg.acceptors.modify p fun a => { a with rejected := true } })
    { dg with pendingAccept := dg.pendingAccept.erase id }

/-- `rejector.Fulfill`, given `reject`. -/
def fulfillRejector (reject : Directed → ID → Except Fault Directed) (dg : Directed) (p : Nat) :
    Except Fault Directed :=
  match dg.rejectors[p]? with
  | none => .ok dg
  | some r =>
    if r.rejected then .ok dg
    else reject { dg with rejectors := dg.rejectors.set p { r with rejected := true } } r.txID

/-- `rejectTx`, given `reject`. -/
def rejectTx (reject : Directed → ID → Except Fault Directed) (dg : Directed) (tx : Tx) :
    Except Fault Directed :=
  let dg := { dg with decidables := dg.decidables.reject tx.id }
  -- a transaction that was accepted pending on this one can't be accepted
  let dg := dg.abandonAcceptors tx.id
  -- a transaction that was issued pending on this one must be rejected
  (dg.pendingReject.blocking tx.id).foldlM (fulfillRejector reject)
    { dg with pendingReject := dg.pendingReject.erase tx.id }

/-- The part of the loop body of `reject` that takes a transaction out of the graph. -/
def detach (conflictKey : ID) (conflict : DirectedTx) : Directed :=
  let dg := dg.unspend conflictKey conflict.tx.inputIDs
  let dg := { dg with
    txs := dg.txs.erase conflictKey
    preferences := dg.preferences.erase conflictKey
    virtuous := dg.virtuous.erase conflictKey
    virtuousVoting := dg.virtuousVoting.erase conflictKey }
  (dg.removeConflict conflictKey (order.list conflict.ins)).removeConflict conflictKey
    (order.list conflict.outs)

/-- The loop body of `reject`, which recurses through the rejectors. -/
def rejectOne (order : RangeOrder ID) : Nat → Directed → ID → Except Fault Directed
  | 0, _, _ => .error .outOfFuel
  | fuel + 1, dg, conflictKey => do
    let conflict ← dg.node conflictKey
    rejectTx (rejectOne order fuel) (dg.detach order conflictKey conflict) conflict.tx

/-- `reject` all the named transactions and remove them from the graph. -/
def reject (conflictIDs : Finset ID) : Except Fault Directed :=
  (order.list conflictIDs).foldlM (rejectOne order (dg.txs.keys.card + 1)) dg

/-- `Remove`. -/
def remove (txID : ID) : Except Fault Directed := dg.reject order {txID}

/-! ## Accepting -/

/-- The part of `accept` that takes the transaction out of the graph. -/
def withdraw (txID : ID) (txNode : DirectedTx) : Directed :=
  { dg with
    txs := dg.txs.erase txID
    whitelists := dg.whitelists.erase txID
    -- the transaction consumes all the UTXOs of its inputs
    utxos := txNode.tx.inputIDs.foldl (fun utxos inputID => utxos.erase inputID) dg.utxos
    virtuous := dg.virtuous.erase txID
    preferences := dg.preferences.erase txID }

/-- `acceptor.Update`, given `accept`. -/
def updateAcceptor (accept : Directed → ID → Except Fault Directed) (dg : Directed) (p : Nat) :
    Except Fault Directed :=
  match dg.acceptors[p]? with
  | none => .ok dg
  | some a => if a.rejected || decide (a.deps ≠ ∅) then .ok dg else accept dg a.txID

/-- `acceptor.Fulfill`, given `accept`. -/
def fulfillAcceptor (accept : Directed → ID → Except Fault Directed) (id : ID) (dg : Directed)
    (p : Nat) : Except Fault Directed :=
  updateAcceptor accept
    { dg with acceptors := dg.acceptors.modify p fun a => { a with deps := a.deps.erase id } } p

/-- `acceptTx`, given `accept`. -/
def acceptTx (accept : Directed → ID → Except Fault Directed) (dg : Directed) (tx : Tx) :
    Except Fault Directed := do
  let dg := { dg with decidables := dg.decidables.accept tx.id }
  -- a transaction that was accepted pending on this one doesn't block on it anymore
  let dg ← (dg.pendingAccept.blocking tx.id).foldlM (fulfillAcceptor accept tx.id)
    { dg with pendingAccept := dg.pendingAccept.erase tx.id }
  -- a transaction that was issued pending on this one isn't rejected because of it
  return { dg with pendingReject := dg.pendingReject.erase tx.id }

/-- `accept`, which recurses through the acceptors. -/
def accept (order : RangeOrder ID) : Nat → Directed → ID → Except Fault Directed
  | 0, _, _ => .error .outOfFuel
  | fuel + 1, dg, txID => do
    let txNode ← dg.node txID
    let dg := dg.withdraw txID txNode
    -- reject all the transactions that conflicted with this one
    let dg ← dg.reject order txNode.ins
    let dg ← dg.reject order txNode.outs
    acceptTx (accept order fuel) dg txNode.tx

/-! ## Issuing -/

/-- `addEdge` from the node being added to a processing transaction. -/
def addEdge (src : DirectedTx) (dstID : ID) : Except Fault (Directed × DirectedTx) := do
  let dst ← dg.node dstID
  return ({ dg with
      virtuous := dg.virtuous.erase dstID
      virtuousVoting := dg.virtuousVoting.erase dstID
      txs := dg.txs.insert dstID { dst with rogue := true, ins := insert src.tx.id dst.ins } },
    { src with outs := insert dstID src.outs })

/-- `addEdge` for each of the conflicts. -/
def addEdges (src : DirectedTx) (dstIDs : List ID) : Except Fault (Directed × DirectedTx) :=
  dstIDs.foldlM (fun s dstID => s.1.addEdge s.2 dstID) (dg, src)

/-- The whitelist transactions that don't whitelist the ID. -/
def notWhitelisting (txID : ID) : Finset ID :=
  dg.whitelists.keys.filter fun otherID => ∀ whitelist ∈ dg.whitelists.lookup otherID,
    txID ∉ whitelist

/-- The part of `Add` for the whitelist of the transaction. -/
def addWhitelist (s : Directed × DirectedTx) : Except Fault (Directed × DirectedTx) :=
  match s.2.tx.whitelist with
  | none => .ok s
  | some whitelist => do
    -- all transactions that are not explicitly whitelisted are conflicting
    let s ← s.1.addEdges s.2 (order.list (s.1.txs.keys.filter (· ∉ whitelist)))
    return ({ s.1 with whitelists := s.1.whitelists.insert s.2.tx.id whitelist }, s.2)

/-- The loop body of `Add` for an input. -/
def spend (s : Directed × DirectedTx) (inputID : ID) : Except Fault (Directed × DirectedTx) := do
  let spenders := s.1.spenders inputID
  let s ← s.1.addEdges s.2 (order.list spenders)
  return ({ s.1 with utxos := s.1.utxos.insert inputID (insert s.2.tx.id spenders) }, s.2)

/-- The dependencies that aren't accepted yet. -/
def unaccepted (deps : List ID) : Finset ID :=
  (deps.filter fun dep => decide (dg.decidables.status dep ≠ .accepted)).toFinset

/-- `registerRejector`, given what `Dependencies` returns. -/
def registerRejector (deps : List ID) (txID : ID) : Directed :=
  { dg with
    rejectors := dg.rejectors ++ [{ rejected := false, txID }]
    pendingReject := dg.pendingReject.register (order.list (dg.unaccepted deps))
      dg.rejectors.length }

/-- The part of `Add` that puts the node with all its edges into the graph. -/
def insertNode (txNode : DirectedTx) : Directed := let txID := txNode.tx.id
  -- rogue if it had any conflicts registered
  let rogue := decide (txNode.outs ≠ ∅)
  { dg with
    virtuous := if rogue then dg.virtuous else insert txID dg.virtuous
    virtuousVoting := if rogue then dg.virtuousVoting else insert txID dg.virtuousVoting
    -- if a transaction is virtuous, it must be preferred
    preferences := if rogue then dg.preferences else insert txID dg.preferences
    txs := dg.txs.insert txID { txNode with rogue } }

/-- The part of `Add` for a transaction that should be voted on. -/
def issue (tx : Tx) (deps : List ID) : Except Fault Directed := do
  let s ← dg.addEdges (.new tx) (order.list (dg.notWhitelisting tx.id))
  let s ← addWhitelist order s
  let s ← tx.inputIDs.foldlM (spend order) s
  return (s.1.insertNode s.2).registerRejector order deps tx.id

/-- `Add`. `deps` is what the transaction's `Dependencies` returns. -/
def add (tx : Tx) (deps : List ID) : Except Fault Directed := if dg.issued tx then .ok dg
  -- without inputs there can't be conflicts: vacuously accepted
  else if tx.inputIDs = [] then .ok { dg with decidables := dg.decidables.accept tx.id }
  else dg.issue order tx deps

/-! ## Polling -/

/-- `registerAcceptor`, given what `Dependencies` returns. -/
def registerAcceptor (deps : List ID) (txID : ID) : Except Fault Directed :=
  let unaccepted := dg.unaccepted deps
  updateAcceptor (accept order (dg.txs.keys.card + 1))
    { dg with
      -- no longer being voted on
      virtuousVoting := dg.virtuousVoting.erase txID
      acceptors := dg.acceptors ++ [{ deps := unaccepted, rejected := false, txID }]
      pendingAccept := dg.pendingAccept.register (order.list unaccepted) dg.acceptors.length }
    dg.acceptors.length

/-- `redirectEdge`: returns whether the direction of the edge was switched. -/
def redirectEdge (txID : ID) (s : Directed × Bool) (conflictID : ID) :
    Except Fault (Directed × Bool) := do
  let txNode ← s.1.node txID
  let conflict ← s.1.node conflictID
  if txNode.numSuccessfulPolls ≤ conflict.numSuccessfulPolls then return s
  let conflict := { conflict with ins := conflict.ins.erase txID, outs := insert txID conflict.outs }
  let txNode := { txNode with
    ins := insert conflictID txNode.ins, outs := txNode.outs.erase conflictID }
  let preferences := s.1.preferences.erase conflictID -- it has an outbound edge
  return ({ s.1 with
    txs := (s.1.txs.insert conflictID conflict).insert txID txNode
    preferences := if txNode.outs = ∅ then insert txID preferences else preferences }, true)

/-- `redirectEdges`: turn outbound edges into inbound edges if the preferences have
    changed. -/
def redirectEdges (txID : ID) : Except Fault (Directed × Bool) := do
  let txNode ← dg.node txID
  (order.list txNode.outs).foldlM (redirectEdge txID) (dg, false)

/-- The part of the loop body of `RecordPoll` that counts the poll, and accepts the
    transaction once its dependencies are decided. -/
def pollNode (txID : ID) (txNode : DirectedTx) : Except Fault Directed :=
  let sb := txNode.toSnowball.recordSuccessfulPoll dg.pollNumber
  -- a transaction that is already marked to be accepted isn't registered again
  if !txNode.pendingAccept && sb.finalized dg.params.betaVirtuous dg.params.betaRogue then
    { dg with txs := dg.txs.insert txID { txNode with toSnowball := sb, pendingAccept := true } }
      |>.registerAcceptor order (dependencies txNode.tx) txID
  else .ok { dg with txs := dg.txs.insert txID { txNode with toSnowball := sb } }

/-- The loop body of `RecordPoll`. The flag `changed` tracks if frontiers need to be
    recomputed. -/
def pollTx (s : Directed × Bool) (txID : ID) : Except Fault (Directed × Bool) :=
  match s.1.txs.lookup txID with
  | none => .ok s -- may have been decided because of its dependencies
  | some txNode => do
    let dg ← s.1.pollNode order dependencies txID txNode
    if dg.decidables.status txID ≠ .accepted then
      let redirected ← dg.redirectEdges order txID
      return (redirected.1, redirected.2 || s.2)
    else return (dg, true)

/-- `RecordPoll`. `dependencies tx` is what `tx.Dependencies()` returns during the poll. -/
def recordPoll (votes : Bag) : Except Fault (Directed × Bool) :=
  let dg := { dg with pollNumber := dg.pollNumber + 1 }
  -- only transactions that received alpha votes
  (order.list (votes.setThreshold dg.params.alpha).metThreshold).foldlM
    (pollTx order dependencies) (dg, false)

end

/-! ## Runs -/

/-- An operation of the snowstorm `Consensus` interface, with the order in which its ranges
    visit their elements: Go leaves that open. -/
inductive Op where
  | add (order : RangeOrder ID) (tx : Tx)
  | remove (order : RangeOrder ID) (txID : ID)
  | recordPoll (order : RangeOrder ID) (votes : Bag)

/-- Apply one operation. -/
def step (dg : Directed) : Op → Except Fault Directed
  | .add order tx => dg.add order tx tx.dependencies
  | .remove order txID => dg.remove order txID
  | .recordPoll order votes => (dg.recordPoll order Tx.dependencies votes).map Prod.fst

/-- The state after a sequence of operations. -/
def run (dg : Directed) (ops : List Op) : Except Fault Directed := ops.foldlM step dg

end Directed

end SavannahNode.Snowstorm
