import SavannahNode.Native.EngineCommon
import SavannahNode.Native.SafeMath
import Mathlib.Algebra.BigOperators.Group.Finset.Basic

/-!
# The bootstrapper of `snow/engine/common`

`bootstrapper.go`: a sample of the beacons is asked for its accepted frontier, then every
beacon is asked which of these containers it has accepted, and the containers with enough
weight behind them are handed to `ForceAccepted`. The state syncer asks its beacons in the
same two rounds, so what both do with the beacons is here as well.

A `validators.Set` is the map of its weights, whose sum is a `uint64`. The comparison of the
weight that failed with the weight that was sampled is done in floating point; it only decides
whether to start over, and is a parameter. The counts of attempts are used in log messages only
and are left out, and so is an error that a handler returns: it shuts the chain down, while the
model goes on from the state the handler left.
-/

namespace SavannahNode

/-! ## Beacons -/

/-- A `validators.Set`: the weight of each validator. The set refuses a total weight that does
    not fit in 64 bits. -/
structure Beacons where
  weights : Finmap fun _ : NodeID => Nat
  fits : ∑ n ∈ weights.keys, (weights.lookup n).getD 0 ≤ maxUint64

namespace Beacons

/-- The validators of `List`. -/
def nodes (b : Beacons) : Finset NodeID := b.weights.keys

/-- `GetWeight`, zero for a node that is not in the set. -/
def weight (b : Beacons) (n : NodeID) : Nat := (b.weights.lookup n).getD 0

/-- `SubsetWeight`. -/
def subsetWeight (b : Beacons) (subset : Finset NodeID) : Nat := ∑ n ∈ subset, b.weight n

/-- `Weight`. -/
def totalWeight (b : Beacons) : Nat := b.subsetWeight b.nodes

end Beacons

/-- `common.Config`, as the chain manager fills it in: `SampleK` is positive unless there are no
    beacons, and `Alpha` is more than half of the weight. -/
structure SyncConfig where
  beacons : Beacons
  sampleK : Nat
  sampleK_pos : beacons.nodes ≠ ∅ → 0 < sampleK
  alpha : Nat
  alpha_pos : 0 < alpha
  retryBootstrap : Bool
  /-- The sampled beacons and those that failed: too much of the sampled weight failed. -/
  frontierFails : Finset NodeID → Finset NodeID → Bool

/-- What one call of a handler leaves open: the result of `Beacons.Sample`, if it is called and
    returns no error, and the order of ranges over sets and maps. -/
structure Choice (cfg : SyncConfig) where
  sample : Option (List NodeID)
  length_sample : ∀ s ∈ sample, s.length = cfg.sampleK
  nodes : RangeOrder NodeID
  ids : RangeOrder ID

/-- The container IDs of a message: the parser refuses duplicates. -/
abbrev ParsedIDs := {ids : List ID // ids.Nodup}

/-! ## Rounds of requests -/

/-- `MaxOutstandingBroadcastRequests`. -/
def maxOutstandingBroadcastRequests : Nat := 50

/-- One round of requests: the nodes that are still to be asked (`pendingSend…`, `target…`) and
    those whose reply is outstanding (`pendingReceive…`, `pending…`). -/
structure Broadcast where
  unsent : Finset NodeID
  pending : Finset NodeID

namespace Broadcast

/-- Nobody is to be asked. -/
def empty : Broadcast := ⟨∅, ∅⟩

/-- The round before the first request. -/
def start (nodes : Finset NodeID) : Broadcast := ⟨nodes, ∅⟩

/-- The loop of `sendGetAccepted` over the nodes that `Pop` returns: those that are asked now. -/
def sendLoop : List NodeID → Broadcast → List NodeID × Broadcast
  | [], b => ([], b)
  | vdr :: rest, b =>
    if b.pending.card < maxOutstandingBroadcastRequests then
      let (vdrs, b) := sendLoop rest ⟨b.unsent.erase vdr, insert vdr b.pending⟩
      (vdr :: vdrs, b)
    else ([], b)

/-- Ask as many nodes as may be outstanding at once. -/
def send (order : RangeOrder NodeID) (b : Broadcast) : List NodeID × Broadcast :=
  sendLoop (order.list b.unsent) b

/-- A node has replied. -/
def receive (b : Broadcast) (n : NodeID) : Broadcast := { b with pending := b.pending.erase n }

end Broadcast

/-- A vote of some weight on top of the previous votes: an overflow is cut off. -/
def addVote (weight previousWeight : Nat) : Nat := (add64 weight previousWeight).getD maxUint64

/-- The difference of two `uint64`s, which wraps around. -/
def wrapSub64 (a b : Nat) : Nat := (a + (maxUint64 + 1) - b) % (maxUint64 + 1)

/-! ## The bootstrapper -/

namespace CommonBootstrapper

/-- A message from a node, or the failure of a request to it. -/
inductive Msg where
  | acceptedFrontier (nodeID : NodeID) (requestID : UInt32) (containerIDs : ParsedIDs)
  | getAcceptedFrontierFailed (nodeID : NodeID) (requestID : UInt32)
  | accepted (nodeID : NodeID) (requestID : UInt32) (containerIDs : ParsedIDs)
  | getAcceptedFailed (nodeID : NodeID) (requestID : UInt32)
deriving DecidableEq

/-- What the bootstrapper receives and does: a call of `Startup` begins a new attempt. -/
inductive Event where
  | received (msg : Msg)
  | attempt
  | getAcceptedFrontier (vdrs : List NodeID) (requestID : UInt32)
  | getAccepted (vdrs : List NodeID) (requestID : UInt32) (containerIDs : List ID)
  | forceAccepted (containerIDs : List ID)
deriving DecidableEq

end CommonBootstrapper

open CommonBootstrapper in
/-- `bootstrapper`, with the request ID that it shares with the engine. -/
structure CommonBootstrapper where
  requestID : UInt32
  sampledBeacons : Finset NodeID
  frontierRound : Broadcast
  failedAcceptedFrontier : Finset NodeID
  acceptedFrontierSet : Finset ID
  acceptedRound : Broadcast
  failedAccepted : Finset NodeID
  acceptedVotes : IDMap Nat
  acceptedFrontier : List ID
  events : List Event

namespace CommonBootstrapper

/-- `NewCommonBootstrapper`, with the request ID that `Start` of the engine sets. -/
def new (startReqID : UInt32) : CommonBootstrapper where
  requestID := startReqID
  sampledBeacons := ∅
  frontierRound := .empty
  failedAcceptedFrontier := ∅
  acceptedFrontierSet := ∅
  acceptedRound := .empty
  failedAccepted := ∅
  acceptedVotes := ∅
  acceptedFrontier := []
  events := []

/-- Something happens. -/
def emit (b : CommonBootstrapper) (e : Event) : CommonBootstrapper :=
  { b with events := b.events ++ [e] }

/-- `sendGetAcceptedFrontiers`. -/
def sendGetAcceptedFrontiers (order : RangeOrder NodeID) (b : CommonBootstrapper) :
    CommonBootstrapper :=
  let (vdrs, round) := b.frontierRound.send order
  let b := { b with frontierRound := round }
  if vdrs = [] then b else b.emit (.getAcceptedFrontier vdrs b.requestID)

/-- `sendGetAccepted`. -/
def sendGetAccepted (order : RangeOrder NodeID) (b : CommonBootstrapper) : CommonBootstrapper :=
  let (vdrs, round) := b.acceptedRound.send order
  let b := { b with acceptedRound := round }
  if vdrs = [] then b else b.emit (.getAccepted vdrs b.requestID b.acceptedFrontier)

variable (cfg : SyncConfig) (choice : Choice cfg)

section

variable (b : CommonBootstrapper) (nodeID : NodeID) (requestID : UInt32)

/-- `Startup`. -/
def startup : CommonBootstrapper :=
  match choice.sample with
  | none => b
  | some beacons =>
    let b := { b with
      sampledBeacons := beacons.toFinset
      frontierRound := .start beacons.toFinset
      failedAcceptedFrontier := ∅
      acceptedFrontierSet := ∅
      acceptedRound := .start cfg.beacons.nodes
      failedAccepted := ∅
      acceptedVotes := ∅ }.emit .attempt
    if b.frontierRound.unsent.card = 0 then b.emit (.forceAccepted [])
    else { b with requestID := b.requestID + 1 }.sendGetAcceptedFrontiers choice.nodes

/-- `Restart`. -/
def restart : CommonBootstrapper := b.startup cfg choice

/-- The part of `AcceptedFrontier` after the next requests were sent: once no reply is
    outstanding, every beacon is asked to filter the containers. -/
def requestAccepted : CommonBootstrapper :=
  if b.frontierRound.pending.card ≠ 0 then b
  else if cfg.frontierFails b.sampledBeacons b.failedAcceptedFrontier ∧ cfg.retryBootstrap then
    b.restart cfg choice
  else
    { b with
      requestID := b.requestID + 1
      acceptedFrontier := choice.ids.list b.acceptedFrontierSet }.sendGetAccepted choice.nodes

/-- `AcceptedFrontier`. -/
def onAcceptedFrontier (containerIDs : List ID) : CommonBootstrapper :=
  if requestID ≠ b.requestID then b
  else if nodeID ∉ b.frontierRound.pending then b
  else
    ({ b with
      frontierRound := b.frontierRound.receive nodeID
      acceptedFrontierSet :=
        b.acceptedFrontierSet ∪ containerIDs.toFinset }.sendGetAcceptedFrontiers
      choice.nodes).requestAccepted cfg choice

/-- `GetAcceptedFrontierFailed`. -/
def onGetAcceptedFrontierFailed : CommonBootstrapper :=
  if requestID ≠ b.requestID then b
  else
    { b with failedAcceptedFrontier := insert nodeID b.failedAcceptedFrontier }.onAcceptedFrontier
      cfg choice nodeID requestID []

/-- The loop of `Accepted` over the containers that a node has listed. -/
def countVotes (weight : Nat) (votes : IDMap Nat) (containerIDs : List ID) : IDMap Nat :=
  containerIDs.foldl
    (fun votes id => votes.insert id (addVote weight ((votes.lookup id).getD 0))) votes

/-- The containers with a sufficient weight behind them. -/
def sufficient : List ID :=
  (choice.ids.list b.acceptedVotes.keys).filter fun id =>
    cfg.alpha ≤ (b.acceptedVotes.lookup id).getD 0

/-- The part of `Accepted` after the next requests were sent: once no reply is outstanding, the
    containers with a sufficient weight are accepted. -/
def acceptSufficient : CommonBootstrapper :=
  if b.acceptedRound.pending.card ≠ 0 then b
  else
    let accepted := b.sufficient cfg choice
    if accepted.length = 0 ∧ 0 < cfg.beacons.nodes.card ∧ cfg.retryBootstrap ∧
        wrapSub64 cfg.beacons.totalWeight cfg.alpha < cfg.beacons.subsetWeight b.failedAccepted then
      b.restart cfg choice
    else b.emit (.forceAccepted accepted)

/-- `Accepted`. -/
def onAccepted (containerIDs : List ID) : CommonBootstrapper :=
  if requestID ≠ b.requestID then b
  else if nodeID ∉ b.acceptedRound.pending then b
  else
    ({ b with
      acceptedRound := b.acceptedRound.receive nodeID
      acceptedVotes :=
        countVotes (cfg.beacons.weight nodeID) b.acceptedVotes containerIDs }.sendGetAccepted
      choice.nodes).acceptSufficient cfg choice

/-- `GetAcceptedFailed`. -/
def onGetAcceptedFailed : CommonBootstrapper :=
  if requestID ≠ b.requestID then b
  else
    { b with failedAccepted := insert nodeID b.failedAccepted }.onAccepted cfg choice nodeID
      requestID []

end

/-- The handler of each message. -/
def handle (b : CommonBootstrapper) : Msg → CommonBootstrapper
  | .acceptedFrontier nodeID requestID ids => b.onAcceptedFrontier cfg choice nodeID requestID ids
  | .getAcceptedFrontierFailed nodeID requestID =>
    b.onGetAcceptedFrontierFailed cfg choice nodeID requestID
  | .accepted nodeID requestID ids => b.onAccepted cfg choice nodeID requestID ids
  | .getAcceptedFailed nodeID requestID => b.onGetAcceptedFailed cfg choice nodeID requestID

/-- What happens to the bootstrapper. The engine starts it, and may restart it at any time. While
    no request of the bootstrapper is outstanding, the engine uses request IDs of its own to fetch
    the containers it was handed. -/
inductive Op (cfg : SyncConfig) where
  | startup (choice : Choice cfg)
  | restart (choice : Choice cfg)
  | fetch
  | receive (msg : Msg) (choice : Choice cfg)

/-- One step. -/
def step (b : CommonBootstrapper) : Op cfg → CommonBootstrapper
  | .startup choice => b.startup cfg choice
  | .restart choice => b.restart cfg choice
  | .fetch =>
    if b.frontierRound.pending = ∅ ∧ b.acceptedRound.pending = ∅ then
      { b with requestID := b.requestID + 1 }
    else b
  | .receive msg choice => (b.emit (.received msg)).handle cfg choice msg

/-- The bootstrapper after some steps. -/
def run (startReqID : UInt32) (ops : List (Op cfg)) : CommonBootstrapper :=
  ops.foldl (step cfg) (new startReqID)

end CommonBootstrapper

end SavannahNode
