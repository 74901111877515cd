import SavannahNode.Native.Directed
import SavannahNode.Native.UniqueBag
import Mathlib.Algebra.BigOperators.Group.Finset.Basic

/-!
# Avalanche consensus

`avalanche.Topological` decides a DAG of vertices, each with a batch of transactions that
`snowstorm.Directed` decides (`snow/consensus/avalanche/topological.go`,
`transaction_vertex.go`). A vertex is named by its ID, and `dag` gives the content of the
vertex objects; `vts` is what they report as their status. The transaction vertex of a
vertex is a transaction of the conflict graph with the vertex's ID; its status is kept with
those of the other transactions, vertex IDs and transaction IDs being hashes of different
contents.

Methods return the new state. The scratch fields `leaves`, `kahnNodes` and `votes`, cleared
at the start of each poll, are local values. The loops that Go leaves unbounded run on
fuel. Callbacks return no error; metrics, logging and health checks are left out.
-/

namespace SavannahNode.Avalanche

open Snowstorm (Tx Directed)

/-- `avalanche.Parameters`. -/
structure Parameters extends SavannahNode.Parameters where
  parents : Int
  batchSize : Int

/-- `Parameters.Valid`: `none`, or the message of the error. -/
def Parameters.valid (p : Parameters) : Option String :=
  if p.parents ≤ 1 then some s!"parents = {p.parents}: Fails the condition that: 1 < Parents"
  else if p.batchSize ≤ 0 then
    some s!"batchSize = {p.batchSize}: Fails the condition that: 0 < BatchSize"
  else p.toParameters.verify

/-- What consensus reads of a vertex. -/
structure Vertex where
  parents : List ID
  txs : List Tx
  whitelist : Option (Finset ID)

/-- A call of `Accept` or `Reject` on a vertex, with what vertices and transactions reported
    when `update` came to make it. -/
structure VertexCall where
  decision : Decision
  vtxStatus : ID → Status
  txStatus : ID → Status

/-- The vertices as consensus sees them: their statuses, and the calls made on them so
    far. -/
structure Vertices where
  status : ID → Status
  calls : List VertexCall

/-- `Accept` on a vertex. -/
def Vertices.accept (vts : Vertices) (txStatus : ID → Status) (id : ID) : Vertices :=
  { status := Function.update vts.status id .accepted
    calls := vts.calls ++ [{ decision := .accept id, vtxStatus := vts.status, txStatus }] }

/-- `Reject` on a vertex. -/
def Vertices.reject (vts : Vertices) (txStatus : ID → Status) (id : ID) : Vertices :=
  { status := Function.update vts.status id .rejected
    calls := vts.calls ++ [{ decision := .reject id, vtxStatus := vts.status, txStatus }] }

/-- `kahnNode`. -/
structure KahnNode where
  inDegree : Int
  votes : BitSet

/-- The zero value `kahnNode{}`. -/
def KahnNode.zero : KahnNode := { inDegree := 0, votes := 0 }

/-- The status of the topological sort: `kahnNodes` and `leaves`. -/
structure Kahn where
  kahnNodes : IDMap KahnNode
  leaves : Finset ID

/-- `ta.kahnNodes[id]`, the zero value where the map has no entry. -/
def Kahn.node (k : Kahn) (id : ID) : KahnNode := (k.kahnNodes.lookup id).getD .zero

/-- `Topological`. -/
structure Topological where
  dag : ID → Vertex
  params : Parameters
  pollNumber : Nat
  vts : Vertices
  nodes : Finset ID
  cg : Directed
  preferred : Finset ID
  virtuous : Finset ID
  orphans : Finset ID
  virtuousVoting : Finset ID
  frontier : Finset ID
  preferenceCache : IDMap Bool
  virtuousCache : IDMap Bool

/-- How an operation can fail: invalid parameters, a fault in the conflict graph, a vertex
    that isn't in the processing set (an error in Go), or a loop that doesn't end. -/
inductive Fault where
  | invalidParameters (message : String)
  | conflictGraph (fault : Snowstorm.Fault)
  | vertexNotFound (id : ID)
  | outOfFuel
deriving DecidableEq, Repr

namespace Topological

/-- `transactionVertex`, as a transaction of the conflict graph. -/
def txv (ta : Topological) (vtxID : ID) : Tx :=
  { id := vtxID
    inputIDs := [vtxID]
    dependencies := (ta.dag vtxID).parents
    whitelist := (ta.dag vtxID).whitelist }

/-- What `Dependencies` returns. A transaction vertex depends on those of its vertex's
    parents that are currently processing. -/
def dependencies (ta : Topological) (tx : Tx) : List ID :=
  if tx.id ∈ ta.nodes then tx.dependencies.filter (· ∈ ta.nodes) else tx.dependencies

variable (ta : Topological) (order : RangeOrder ID) (vtxID : ID)

/-- Run an operation of the conflict graph. -/
def onGraph {α : Type} (op : Except Snowstorm.Fault α) : Except Fault α :=
  op.mapError .conflictGraph

/-! ## Counting the votes -/

/-- The IDs of the vertices that aren't decided. -/
def undecided (deps : List ID) : List ID := deps.filter fun dep => !(ta.vts.status dep).decided

/-- The loop of `markAncestorInDegrees`. The top of the stack is the head of the list. -/
def markAncestorInDegrees (ta : Topological) : Nat → List ID → Kahn → Except Fault Kahn
  | _, [], k => .ok k
  | 0, _ :: _, _ => .error .outOfFuel
  | fuel + 1, currentID :: frontier, k =>
    let kahn := k.node currentID
    -- reached through a transitive edge, so the in-degree increases
    let kahn := { kahn with inDegree := kahn.inDegree + 1 }
    let leaves := if kahn.inDegree = 1 then k.leaves.erase currentID else k.leaves
    let k' : Kahn := { kahnNodes := k.kahnNodes.insert currentID kahn, leaves }
    match k.kahnNodes.lookup currentID with
    | some _ => ta.markAncestorInDegrees fuel frontier k'
    | none =>
      ta.markAncestorInDegrees fuel
        ((ta.undecided (ta.dag currentID).parents).reverse ++ frontier) k'

/-- The number of parent links between the processing vertices, and of those out of them:
    `markAncestorInDegrees` follows each of them once at most. -/
def numLinks : Nat := ∑ v ∈ ta.nodes, (ta.dag v).parents.length

/-- The loop body of `calculateInDegree`. -/
def countVote (responses : UniqueBag) (k : Kahn) (vote : ID) : Except Fault Kahn :=
  -- either something decided, or something we haven't heard of yet
  if vote ∉ ta.nodes then .ok k
  else
    let kahn := k.node vote
    let kahn := { kahn with votes := kahn.votes.union (responses.getSet vote) }
    let k' := { k with kahnNodes := k.kahnNodes.insert vote kahn }
    match k.kahnNodes.lookup vote with
    | some _ => .ok k'
    | none =>
      ta.markAncestorInDegrees ta.numLinks (ta.undecided (ta.dag vote).parents).reverse
        { k' with leaves := insert vote k'.leaves }

/-- `calculateInDegree`. -/
def calculateInDegree (responses : UniqueBag) : Except Fault Kahn :=
  (responses.list order).foldlM (ta.countVote responses) { kahnNodes := ∅, leaves := ∅ }

/-- What `pushVotes` has collected: the votes of each transaction, and the conflicts of each
    transaction with votes. -/
structure Pushed where
  votes : UniqueBag
  txConflicts : IDMap (Finset ID)

/-- Give votes to a transaction. -/
def Pushed.give (p : Pushed) (cg : Directed) (votes : BitSet) (tx : Tx) : Pushed :=
  { votes := p.votes.unionSet tx.id votes
    txConflicts := match p.txConflicts.lookup tx.id with
      | some _ => p.txConflicts
      | none => p.txConflicts.insert tx.id (cg.conflicts tx) }

/-- The loop body of `pushVotes` over the parents of a leaf. -/
def pushToParent (votes : BitSet) (k : Kahn) (depID : ID) : Kahn :=
  match k.kahnNodes.lookup depID with
  | none => k
  | some depNode =>
    let depNode := { inDegree := depNode.inDegree - 1, votes := depNode.votes.union votes }
    { kahnNodes := k.kahnNodes.insert depID depNode
      -- only traverse into the leaves
      leaves := if depNode.inDegree = 0 then insert depID k.leaves else k.leaves }

/-- The loop of `pushVotes` over the leaves. -/
def pushLeaves (ta : Topological) (pops : RangeOrder ID) : Nat → Kahn → Pushed → Except Fault Pushed
  | 0, k, p => if k.leaves = ∅ then .ok p else .error .outOfFuel
  | fuel + 1, k, p =>
    match pops.list k.leaves with
    | [] => .ok p
    | leaf :: _ =>
      let kahn := k.node leaf
      let k := { k with leaves := k.leaves.erase leaf }
      if leaf ∈ ta.nodes then
        let vtx := ta.dag leaf
        -- the transaction vertex needs the votes to make progress as well
        let p := (vtx.txs ++ [ta.txv leaf]).foldl (fun p tx => p.give ta.cg kahn.votes tx) p
        ta.pushLeaves pops fuel (vtx.parents.foldl (pushToParent kahn.votes) k) p
      else ta.pushLeaves pops fuel k p

/-- The votes for transactions that conflict with each transaction. -/
def Pushed.conflictingVotes (p : Pushed) (order : RangeOrder ID) : UniqueBag :=
  (order.list p.txConflicts.keys).foldl (fun b txID =>
    (order.list ((p.txConflicts.lookup txID).getD ∅)).foldl
      (fun b conflictTxID => b.unionSet txID (p.votes.getSet conflictTxID)) b) ∅

/-- `pushVotes`: the votes for each transaction, without those that were also given to a
    conflicting one. -/
def pushVotes (order pops : RangeOrder ID) (k : Kahn) : Except Fault Bag := do
  let p ← ta.pushLeaves pops ta.nodes.card k { votes := ∅, txConflicts := ∅ }
  return (p.votes.difference (p.conflictingVotes order)).bag order ta.params.alpha

/-! ## The DAG -/

/-- Set both caches of a vertex. -/
def cache (preferred virtuous : Bool) : Topological :=
  { ta with
    preferenceCache := ta.preferenceCache.insert vtxID preferred
    virtuousCache := ta.virtuousCache.insert vtxID virtuous }

/-- What `update` finds out about a vertex before it decides it. -/
structure View where
  acceptable : Bool
  rejectable : Bool
  preferred : Bool
  virtuous : Bool

/-- The loop body of `update` over the transactions of the vertex. -/
def inspectTx (v : View) (tx : Tx) : View :=
  let s := ta.cg.decidables.status tx.id
  let v := if s = .rejected then
      { v with rejectable := true, preferred := false, virtuous := false }
    else v
  if s ≠ .accepted then
    { v with
      acceptable := false
      preferred := v.preferred && decide (tx.id ∈ ta.cg.preferences)
      virtuous := v.virtuous && decide (tx.id ∈ ta.cg.virtuous) }
  else v

/-- The part of `update` that looks at the transactions of the vertex. -/
def inspect : View :=
  let initialTxVStatus := ta.cg.decidables.status vtxID
  let acceptable := decide (initialTxVStatus = .accepted)
  (ta.dag vtxID).txs.foldl ta.inspectTx
    { acceptable
      rejectable := decide (initialTxVStatus = .rejected)
      preferred := acceptable || decide (vtxID ∈ ta.cg.preferences)
      virtuous := acceptable || decide (vtxID ∈ ta.cg.virtuous) }

/-- The part of `update` that takes the transaction vertex of a rejected vertex out of the
    conflict graph. -/
def removeTxv : Except Fault Topological :=
  if (ta.cg.decidables.status vtxID).decided then .ok ta
  else do
    let cg ← onGraph (ta.cg.remove order vtxID)
    return { ta with cg, virtuousVoting := ta.virtuousVoting.erase vtxID }

/-- The part of `update` that rejects a vertex. -/
def rejectVertex : Except Fault Topological := do
  let ta' ← ta.removeTxv order vtxID
  return { ta' with
    vts := ta'.vts.reject ta.cg.decidables.status vtxID
    nodes := ta'.nodes.erase vtxID }

/-- The part of `update` that replaces the parents by the vertex in the frontiers. -/
def place (v : View) : Topological :=
  let deps := (ta.dag vtxID).parents
  let ta := { ta with frontier := insert vtxID (ta.frontier \ deps.toFinset) }
  let ta := ta.cache vtxID v.preferred v.virtuous
  let ta := if v.preferred then
      { ta with
        preferred := insert vtxID ta.preferred \ deps.toFinset
        orphans := ta.orphans \ (((ta.dag vtxID).txs.filter fun tx =>
          decide (ta.cg.decidables.status tx.id ≠ .accepted)).map Tx.id).toFinset }
    else ta
  if v.virtuous then { ta with virtuous := insert vtxID ta.virtuous \ deps.toFinset }
  else { ta with virtuousVoting := ta.virtuousVoting.erase vtxID }

/-- The part of `update` after the parents were updated. -/
def settle (v : View) : Except Fault Topological := do
  let deps := (ta.dag vtxID).parents
  if deps.any fun dep => decide (ta.vts.status dep = .rejected) then
    -- a parent is rejected, so the vertex should be rejected
    let ta ← ta.rejectVertex order vtxID
    return ta.cache vtxID false false
  else
    let acceptable := v.acceptable && deps.all fun dep => decide (ta.vts.status dep = .accepted)
    let ta := ta.place vtxID v
    if acceptable then
      return { ta with
        vts := ta.vts.accept ta.cg.decidables.status vtxID
        nodes := ta.nodes.erase vtxID }
    else if v.rejectable then ta.rejectVertex order vtxID
    else return ta

/-- The loop body of `update` over the parents, given `update`. -/
def updateParent (update : Topological → ID → Except Fault Topological) (s : Topological × View)
    (dep : ID) : Except Fault (Topological × View) := do
  let ta ← update s.1 dep
  return (ta, { s.2 with
    preferred := s.2.preferred && (ta.preferenceCache.lookup dep).getD false
    virtuous := s.2.virtuous && (ta.virtuousCache.lookup dep).getD false })

/-- `update`. -/
def update (order : RangeOrder ID) : Nat → Topological → ID → Except Fault Topological
  | 0, _, _ => .error .outOfFuel
  | fuel + 1, ta, vtxID =>
    match ta.preferenceCache.lookup vtxID with
    | some _ => .ok ta -- already updated
    | none =>
      let ta := { ta with orphans := ta.orphans.erase vtxID }
      match ta.vts.status vtxID with
      | .accepted =>
        .ok ({ ta with
          preferred := insert vtxID ta.preferred
          virtuous := insert vtxID ta.virtuous
          frontier := insert vtxID ta.frontier }.cache vtxID true true)
      | .rejected => .ok (ta.cache vtxID false false)
      | _ =>
        if vtxID ∉ ta.nodes then .error (.vertexNotFound vtxID)
        else do
          let s ← (ta.dag vtxID).parents.foldlM (updateParent (update order fuel))
            (ta, ta.inspect vtxID)
          s.1.settle order vtxID s.2

/-- The part of `updateFrontiers` that clears the frontiers and the caches. -/
def clearFrontiers : Topological :=
  { ta with
    preferred := ∅
    virtuous := ∅
    virtuousVoting := ta.cg.virtuousVoting
    orphans := ta.cg.virtuous -- initially, nothing is preferred
    frontier := ∅
    preferenceCache := ∅
    virtuousCache := ∅ }

/-- `updateFrontiers`: update all the vertices that were in the previous frontier. -/
def updateFrontiers : Except Fault Topological :=
  (order.list ta.frontier).foldlM (update order (ta.nodes.card + 1)) ta.clearFrontiers

/-- `Initialize`. `dag` gives the vertices, `vtxStatus` and `txStatus` what vertices and
    transactions report when consensus starts. -/
def init (dag : ID → Vertex) (params : Parameters) (frontier : Finset ID)
    (vtxStatus txStatus : ID → Status) (order : RangeOrder ID) : Except Fault Topological :=
  match params.valid with
  | some err => .error (.invalidParameters err)
  | none => do
    let cg ← (Directed.init params.toParameters txStatus).mapError .invalidParameters
    updateFrontiers {
      dag
      params
      pollNumber := 0
      vts := { status := vtxStatus, calls := [] }
      nodes := ∅
      cg
      preferred := ∅
      virtuous := ∅
      orphans := ∅
      virtuousVoting := ∅
      frontier
      preferenceCache := ∅
      virtuousCache := ∅ } order

/-- The loop body of `Add` over the transactions of the vertex. -/
def addTx (ta : Topological) (tx : Tx) : Except Fault Topological := do
  if (ta.cg.decidables.status tx.id).decided then return ta
  let cg ← onGraph (ta.cg.add order tx (ta.dependencies tx))
  -- still being voted on
  return { ta with
    cg
    virtuousVoting := if tx.id ∈ cg.virtuousVoting then insert tx.id ta.virtuousVoting
      else ta.virtuousVoting }

/-- The part of `Add` that issues the transaction vertex, whose status is new. -/
def addVertex : Except Fault Topological := do
  let ta := { ta with
    nodes := insert vtxID ta.nodes
    cg := { ta.cg with decidables := { ta.cg.decidables with
      status := Function.update ta.cg.decidables.status vtxID .processing } } }
  let cg ← onGraph (ta.cg.add order (ta.txv vtxID) (ta.dependencies (ta.txv vtxID)))
  return { ta with
    cg
    virtuousVoting := if vtxID ∈ cg.virtuousVoting then insert vtxID ta.virtuousVoting
      else ta.virtuousVoting }

/-- `Add`. -/
def add : Except Fault Topological := do
  if (ta.vts.status vtxID).decided || decide (vtxID ∈ ta.nodes) then return ta
  let ta ← (ta.dag vtxID).txs.foldlM (addTx order) ta
  let ta ← ta.addVertex order vtxID
  update order (ta.nodes.card + 1) ta vtxID

/-- The loop of `RecordPoll` that stops as soon as there are alpha votes. -/
def partialVotes (ta : Topological) (order : RangeOrder ID) (responses : UniqueBag) : BitSet :=
  (responses.list order).foldl (fun partialVotes vote =>
    if ta.params.alpha ≤ partialVotes.len then partialVotes
    else partialVotes.union (responses.getSet vote)) 0

/-- The votes that `RecordPoll` applies to the conflict graph. -/
def collectVotes (order pops : RangeOrder ID) (responses : UniqueBag) : Except Fault Bag := do
  let k ← ta.calculateInDegree order responses
  ta.pushVotes order pops k

/-- `RecordPoll`. -/
def recordPoll (ta : Topological) (order pops : RangeOrder ID) (responses : UniqueBag) :
    Except Fault Topological := do
  let ta := { ta with pollNumber := ta.pollNumber + 1 }
  -- with less than alpha votes in total, the poll fails without a traversal
  if ((ta.partialVotes order responses).len : Int) < ta.params.alpha then
    let polled ← onGraph (ta.cg.recordPoll order ta.dependencies ∅)
    return { ta with cg := polled.1 }
  else
    let votes ← ta.collectVotes order pops responses
    let polled ← onGraph (ta.cg.recordPoll order ta.dependencies votes)
    let ta := { ta with cg := polled.1 }
    -- if the transactions weren't changed, there is no need to perform a traversal
    if polled.2 then ta.updateFrontiers order else return ta

/-! ## Runs -/

/-- An operation of the avalanche `Consensus` interface, with the orders in which its
    ranges visit their elements and in which leaves are popped: Go leaves both open. -/
inductive Op where
  | add (order : RangeOrder ID) (vtxID : ID)
  | recordPoll (order pops : RangeOrder ID) (responses : UniqueBag)

/-- Apply one operation. -/
def step : Op → Except Fault Topological
  | .add order vtxID => ta.add order vtxID
  | .recordPoll order pops responses => ta.recordPoll order pops responses

/-- The state after a sequence of operations. -/
def run (ops : List Op) : Except Fault Topological := ops.foldlM step ta

end Topological

end SavannahNode.Avalanche
