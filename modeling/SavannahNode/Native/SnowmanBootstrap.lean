import Mathlib.Order.Lattice.Nat
import SavannahNode.Native.Database
import SavannahNode.Native.EngineCommon
import SavannahNode.Native.JobQueue

/-!
# Bootstrapping a linear chain

`snow/engine/snowman/bootstrap`: the blocks that are known to be accepted are fetched with their
ancestors, queued as jobs, and executed when none is missing.

A block is its ID: the virtual machine says what its parent and its height are, and bytes are
parsed to the ID of a block. `GetBlock` finds the accepted blocks and those that are `known`; a
virtual machine may or may not learn blocks when it parses them, and forget them. A job is
accepted when it is executed, unless that fails. Nodes are restarted between two handlers.
Metrics, progress reports and the messages that lead to `ForceAccepted` are left out.
-/

namespace SavannahNode.SnowmanBootstrap

open Proc

/-- The virtual machine and the configuration. -/
structure Env where
  parent : ID → ID
  height : ID → Nat
  rejected : ID → Bool
  /-- `ParseBlock`. -/
  parse : Bytes → Option ID
  ancestorsMaxContainersReceived : Nat
  retryBootstrap : Bool
  order : RangeOrder ID

section

variable (env : Env) (call : Call) (nodeID : NodeID) (requestID : Nat)

/-- A block depends on its parent. No block has the empty ID. -/
def Env.jobs : Queue.Env where
  deps id := if id = ID.empty then ∅ else {env.parent id}
  order := env.order

/-- `BatchedParseBlock`. -/
def Env.parseAll (blks : List Bytes) : Option (List ID) := blks.mapM env.parse

/-- What the surroundings decide during a call. -/
structure Call where
  /-- The order in which `Peek` sees nodes. -/
  peers : RangeOrder NodeID
  /-- The execution of which jobs fails. -/
  fails : ID → Bool
  /-- `Subnet.IsBootstrapped`. -/
  subnetBootstrapped : Bool

/-- What is recorded of executions. -/
inductive Event where
  /-- `ExecuteAll` is called while these IDs are missing. -/
  | started (missingIDs : Finset ID)
  /-- `ExecuteAll` has run to the end, after these IDs were passed to `ForceAccepted`. -/
  | finished (before after : Queue.World) (startingHeight : Nat) (forced : Finset ID)

/-- `bootstrapper`, and the virtual machine. -/
structure Bootstrapper where
  /-- `Blocked`, and the blocks that are accepted. -/
  blocked : Queue.World
  /-- Other blocks that `GetBlock` finds. -/
  known : Finset ID
  outstandingRequests : Requests
  requestID : Nat
  fetchFrom : Finset NodeID
  /-- `StartupTracker.PreferredPeers`. -/
  preferredPeers : Finset NodeID
  startingHeight : Nat
  executedStateTransitions : Nat
  halter : Halter
  isBootstrapped : Bool
  awaitingTimeout : Bool
  /-- `ForceAccepted` was called since the last restart. -/
  forceAcceptedCalled : Bool
  /-- What was passed to it. -/
  forced : Finset ID
  events : List Event

/-- How a handler fails. -/
inductive BootErr where
  | noValidators (blkID : ID)
  | rejected (blkID : ID)
  | unexpectedTimeout
  | executeAll (e : Queue.JobErr)
  /-- A loop has not ended; this is never returned. -/
  | diverges
deriving DecidableEq

/-- A part of a handler. -/
abbrev BootM (α : Type) := Proc Bootstrapper BootErr α

/-- `GetBlock` succeeds. -/
def Bootstrapper.getBlock (b : Bootstrapper) (blkID : ID) : Bool :=
  blkID ∈ b.blocked.completed ∨ blkID ∈ b.known

/-- Change the queue. -/
def Bootstrapper.setQueue (b : Bootstrapper) (queue : Queue.JobsWithMissing) : Bootstrapper :=
  { b with blocked := { b.blocked with queue } }

/-- The peers to fetch from without a node: the preferred ones if none is left. -/
def Bootstrapper.without (b : Bootstrapper) (nodeID : NodeID) : Finset NodeID :=
  if (b.fetchFrom.erase nodeID).card = 0 then b.preferredPeers else b.fetchFrom.erase nodeID

/-- `Halted`. -/
def halted : BootM Bool := do
  let halted ← read fun b => b.halter.halted
  update fun b => { b with halter := b.halter.skip 1 }
  pure halted

/-- `Blocked.AddMissingID`. -/
def addMissingID (blkID : ID) : BootM Unit :=
  update fun b => b.setQueue (b.blocked.queue.addMissingID blkID)

/-- `Blocked.RemoveMissingID`. -/
def removeMissingID (blkID : ID) : BootM Unit :=
  update fun b => b.setQueue (b.blocked.queue.removeMissingID blkID)

/-- `Blocked.Push` of a block job. -/
def push (env : Env) (blkID : ID) : BootM Bool := do
  let pushed ← read fun b => (b.blocked.queue.push env.jobs b.blocked.completed blkID).1
  update fun b => b.setQueue (b.blocked.queue.push env.jobs b.blocked.completed blkID).2
  pure pushed

/-- `Blocked.Commit`. -/
def commit (env : Env) : BootM Unit := update fun b => b.setQueue (b.blocked.queue.commit env.jobs)

/-- `Blocked.ExecuteAll`. -/
def executeAll (env : Env) (call : Call) : BootM Nat := fun b =>
  match (Queue.World.executeAll env.jobs call.fails b.halter.haltedAt).exec b.blocked with
  | (.ok numExecuted, blocked) =>
    (.ok numExecuted, { b with blocked, halter := b.halter.skip (numExecuted + 1) })
  | (.error e, blocked) => (.error (.executeAll e), { b with blocked })

/-- What follows an execution that ran to the end. `Restart` asks the nodes for the accepted
    blocks again. -/
def finish (executedBlocks : Nat) : BootM Unit :=
  update fun b =>
    let previouslyExecuted := b.executedStateTransitions
    let b := { b with executedStateTransitions := executedBlocks }
    if env.retryBootstrap ∧ executedBlocks > 0 ∧ executedBlocks < previouslyExecuted / 2 then b
    else if call.subnetBootstrapped then { b with isBootstrapped := true }
    else { b with awaitingTimeout := true }

/-- `checkFinish`. -/
def checkFinish : BootM Unit := do
  let b ← read fun b => b
  if b.blocked.queue.missingIDs.card ≠ 0 then pure ()
  else if b.isBootstrapped || b.awaitingTimeout then pure ()
  else do
    update fun b => { b with events := .started b.blocked.queue.missingIDs :: b.events }
    let executedBlocks ← executeAll env call
    if ← halted then pure ()
    else do
      update fun b' =>
        { b' with events := .finished b.blocked b'.blocked b'.startingHeight b'.forced :: b'.events }
      finish env call executedBlocks

/-- `markUnavailable`. -/
def markUnavailable : BootM Unit := update fun b => { b with fetchFrom := b.without nodeID }

/-- Send `GetAncestors` to a node. -/
def request (validatorID : NodeID) (blkID : ID) : BootM Unit :=
  update fun b =>
    { b with
      requestID := b.requestID + 1
      outstandingRequests := b.outstandingRequests.add validatorID (b.requestID + 1) blkID }

/-- `fetch`. -/
def fetch (blkID : ID) : BootM Unit := do
  let b ← read fun b => b
  if b.outstandingRequests.contains blkID then pure ()
  else if b.getBlock blkID then checkFinish env call
  else
    match (call.peers.list b.fetchFrom).head? with
    | none => .fail (.noValidators blkID)
    | some validatorID => do
      markUnavailable validatorID
      request validatorID blkID

/-- The loop of `process`. -/
def processLoop (env : Env) (call : Call) (processingBlocks : List ID) : Nat → ID → BootM Unit
  | 0, _ => .fail .diverges
  | fuel + 1, blkID => do
    if ← halted then
      addMissingID blkID
      commit env
    else
      removeMissingID blkID
      let b ← read fun b => b
      if env.rejected blkID then .fail (.rejected blkID)
      else if blkID ∈ b.blocked.completed ∨ env.height blkID ≤ b.startingHeight then
        commit env
        checkFinish env call
      else
        let pushed ← push env blkID
        if !pushed then
          commit env
          checkFinish env call
        else if env.parent blkID ∈ processingBlocks then
          processLoop env call processingBlocks fuel (env.parent blkID)
        else if b.getBlock (env.parent blkID) then
          processLoop env call processingBlocks fuel (env.parent blkID)
        else
          addMissingID (env.parent blkID)
          fetch env call (env.parent blkID)
          commit env
          checkFinish env call

/-- The blocks that `process` can come to. -/
def Bootstrapper.reachable (b : Bootstrapper) (processingBlocks : List ID) (blkID : ID) : Finset ID :=
  insert blkID (processingBlocks.toFinset ∪ (b.blocked.completed ∪ b.known))

/-- `process`. Every iteration but the last queues a block. -/
def process (processingBlocks : List ID) (blkID : ID) : BootM Unit := do
  let fuel ← read fun b => (b.reachable processingBlocks blkID).card + 1
  processLoop env call processingBlocks fuel blkID

/-- The first loop of `ForceAccepted`: the blocks that are there already. -/
def seek (env : Env) (call : Call) : List ID → BootM (List ID)
  | [] => pure []
  | blkID :: blkIDs => do
    addMissingID blkID
    let found ← read fun b => b.getBlock blkID
    if found then do
      let toProcess ← seek env call blkIDs
      pure (blkID :: toProcess)
    else do
      fetch env call blkID
      seek env call blkIDs

/-- The second loop of `ForceAccepted`. -/
def processAll (env : Env) (call : Call) : List ID → BootM Unit
  | [] => pure ()
  | blkID :: blkIDs => do
    process env call [] blkID
    processAll env call blkIDs

/-- `ForceAccepted`. -/
def forceAccepted (acceptedContainerIDs : List ID) : BootM Unit := do
  let pendingContainerIDs ← read fun b => env.order.list b.blocked.queue.missingIDs
  update fun b =>
    { b with
      fetchFrom := b.preferredPeers
      forceAcceptedCalled := true
      forced := b.forced ∪ acceptedContainerIDs.toFinset }
  let toProcess ← seek env call (pendingContainerIDs ++ acceptedContainerIDs)
  processAll env call toProcess
  checkFinish env call

/-- `OutstandingRequests.Remove`. -/
def removeRequest : BootM (Option ID) := do
  let blkID ← read fun b => (b.outstandingRequests.remove nodeID requestID).1
  update fun b =>
    { b with outstandingRequests := (b.outstandingRequests.remove nodeID requestID).2 }
  pure blkID

/-- Fetch from a node that has answered. -/
def fetchFromAdd : BootM Unit :=
  update fun b => { b with fetchFrom := insert nodeID b.fetchFrom }

/-- `Ancestors`, where the virtual machine learns blocks when it parses. -/
def ancestors (blks : List Bytes) (learned : Finset ID) : BootM Unit := do
  match ← removeRequest nodeID requestID with
  | none => pure ()
  | some wantedBlkID =>
    if blks.length = 0 then
      markUnavailable nodeID
      fetch env call wantedBlkID
    else
      fetchFromAdd nodeID
      update fun b => { b with known := b.known ∪ learned }
      match env.parseAll (blks.take env.ancestorsMaxContainersReceived) with
      | none => fetch env call wantedBlkID
      | some [] => fetch env call wantedBlkID
      | some (requestedBlock :: blockSet) =>
        if requestedBlock ≠ wantedBlkID then fetch env call wantedBlkID
        else process env call blockSet requestedBlock

/-- `GetAncestorsFailed`. -/
def getAncestorsFailed : BootM Unit := do
  match ← removeRequest nodeID requestID with
  | none => pure ()
  | some blkID =>
    fetchFromAdd nodeID
    fetch env call blkID

end

/-- `Timeout`. -/
def timeout : BootM Unit := do
  if ← read fun b => b.awaitingTimeout then
    update fun b => { b with awaitingTimeout := false }
  else .fail .unexpectedTimeout

/-- `math.MaxInt32`. -/
def maxInt32 : Nat := 2147483647

/-- `New` and `Start`, on a queue that was opened. The last accepted block is the highest one. -/
def Bootstrapper.new (env : Env) (blocked : Queue.World) (known : Finset ID)
    (preferredPeers : Finset NodeID) (events : List Event) : Bootstrapper where
  blocked
  known
  outstandingRequests := .empty
  requestID := 0
  fetchFrom := ∅
  preferredPeers
  startingHeight := blocked.completed.sup env.height
  executedStateTransitions := maxInt32
  halter := ⟨none⟩
  isBootstrapped := false
  awaitingTimeout := false
  forceAcceptedCalled := false
  forced := ∅
  events

end SavannahNode.SnowmanBootstrap
