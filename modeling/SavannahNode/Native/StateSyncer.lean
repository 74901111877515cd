import SavannahNode.Native.CommonBootstrapper
import SavannahNode.Native.Database

/-!
# The state syncer

`snow/engine/snowman/syncer/state_syncer.go`: a sample of the beacons is asked for the last
state summary, then every beacon votes on the summaries that were reported, and the VM is told
to accept one of those with enough weight behind them.

A state summary is its ID here, which determines its height. `summariesHeights` and
`uniqueSummariesHeights` hold the same heights and are one list.
-/

namespace SavannahNode

namespace StateSyncer

/-- `block.StateSyncableVM`: parsing a summary, and the heights of summaries. -/
structure VM where
  parseStateSummary : Bytes → Option ID
  height : ID → Nat

/-- `GetOngoingSyncStateSummary`. -/
inductive Ongoing where
  | found (summary : ID)
  | notFound
  | error
deriving DecidableEq

/-- What one call of a handler leaves open: besides the choices of the bootstrapper, what the VM
    returns for the ongoing summary, and from `Accept` of a summary (`none` is an error). -/
structure SyncChoice (cfg : SyncConfig) extends Choice cfg where
  ongoing : Ongoing
  startedSyncing : Option Bool

/-- A message from a node, or the failure of a request to it. -/
inductive Msg where
  | stateSummaryFrontier (nodeID : NodeID) (requestID : UInt32) (summary : Bytes)
  | getStateSummaryFrontierFailed (nodeID : NodeID) (requestID : UInt32)
  | acceptedStateSummary (nodeID : NodeID) (requestID : UInt32) (summaryIDs : ParsedIDs)
  | getAcceptedStateSummaryFailed (nodeID : NodeID) (requestID : UInt32)
deriving DecidableEq

/-- What the syncer receives and does: a call of `startup` begins a new attempt, in which the VM
    may report an ongoing summary. -/
inductive Event where
  | received (msg : Msg)
  | attempt
  | ongoing (summary : ID)
  | getStateSummaryFrontier (vdrs : List NodeID) (requestID : UInt32)
  | getAcceptedStateSummary (vdrs : List NodeID) (requestID : UInt32) (heights : List Nat)
  | accept (summary : ID)
  | onDoneStateSyncing (requestID : UInt32)
deriving DecidableEq

end StateSyncer

open StateSyncer in
/-- `stateSyncer`. -/
structure StateSyncer where
  started : Bool
  requestID : UInt32
  locallyAvailableSummary : Option ID
  /-- `nil` before the first attempt. -/
  frontierSeeders : Option (Finset NodeID)
  seeders : Broadcast
  failedSeeders : Finset NodeID
  voters : Broadcast
  failedVoters : Finset NodeID
  weightedSummaries : IDMap Nat
  uniqueSummariesHeights : List Nat
  events : List Event

namespace StateSyncer

/-- `New`, with the request ID that `Start` sets. -/
def new (startReqID : UInt32) : StateSyncer where
  started := false
  requestID := startReqID
  locallyAvailableSummary := none
  frontierSeeders := none
  seeders := .empty
  failedSeeders := ∅
  voters := .empty
  failedVoters := ∅
  weightedSummaries := ∅
  uniqueSummariesHeights := []
  events := []

/-- Something happens. -/
def emit (s : StateSyncer) (e : Event) : StateSyncer := { s with events := s.events ++ [e] }

/-- `sendGetStateSummaryFrontiers`. -/
def sendGetStateSummaryFrontiers (order : RangeOrder NodeID) (s : StateSyncer) : StateSyncer :=
  let (vdrs, round) := s.seeders.send order
  let s := { s with seeders := round }
  if vdrs = [] then s else s.emit (.getStateSummaryFrontier vdrs s.requestID)

/-- `sendGetAcceptedStateSummaries`. -/
def sendGetAcceptedStateSummaries (order : RangeOrder NodeID) (s : StateSyncer) : StateSyncer :=
  let (vdrs, round) := s.voters.send order
  let s := { s with voters := round }
  if vdrs = [] then s
  else s.emit (.getAcceptedStateSummary vdrs s.requestID s.uniqueSummariesHeights)

variable (cfg : SyncConfig) (vm : VM) (choice : SyncChoice cfg)

section

variable (s : StateSyncer) (nodeID : NodeID) (requestID : UInt32)

/-- A summary to vote on: nobody has voted for it yet. -/
def register (summary : ID) : StateSyncer :=
  let height := vm.height summary
  { s with
    weightedSummaries := s.weightedSummaries.insert summary 0
    uniqueSummariesHeights :=
      if height ∈ s.uniqueSummariesHeights then s.uniqueSummariesHeights
      else s.uniqueSummariesHeights ++ [height] }

/-- The part of `startup` after the VM was asked for its ongoing summary. -/
def initiate : StateSyncer :=
  if s.seeders.unsent.card = 0 then s.emit (.onDoneStateSyncing s.requestID)
  else { s with requestID := s.requestID + 1 }.sendGetStateSummaryFrontiers choice.nodes

/-- `startup`, first: the trackers of messages are cleared. -/
def clear : StateSyncer :=
  { s with
    weightedSummaries := ∅
    uniqueSummariesHeights := []
    seeders := .empty
    failedSeeders := ∅
    voters := .empty
    failedVoters := ∅ }.emit .attempt

/-- `startup`, second: the beacons to reach in both rounds. -/
def target (beacons : List NodeID) : StateSyncer :=
  { s with
    frontierSeeders := some beacons.toFinset
    seeders := .start beacons.toFinset
    voters := .start cfg.beacons.nodes }

/-- `startup`, third: the summary that the VM is syncing to is one to vote on. -/
def resume (summary : ID) : StateSyncer :=
  ({ s with locallyAvailableSummary := some summary }.register vm summary).emit (.ongoing summary)

/-- `startup`. The ongoing summary of an earlier attempt is kept if the VM has none. -/
def startup : StateSyncer :=
  match choice.sample with
  | none => s.clear
  | some beacons =>
    match choice.ongoing with
    | .error => s.clear.target cfg beacons
    | .notFound => (s.clear.target cfg beacons).initiate cfg choice
    | .found summary => ((s.clear.target cfg beacons).resume vm summary).initiate cfg choice

/-- `restart`. -/
def restart : StateSyncer := s.startup cfg vm choice

/-- The part of `receivedStateSummaryFrontier` after the next requests were sent: once no reply
    is outstanding, every beacon is asked to vote. Before the first attempt this panics. -/
def requestVotes : StateSyncer :=
  if s.seeders.pending.card ≠ 0 then s
  else
    match s.frontierSeeders with
    | none => s
    | some sampled =>
      if cfg.frontierFails sampled s.failedSeeders ∧ cfg.retryBootstrap then
        s.restart cfg vm choice
      else
        { s with requestID := s.requestID + 1 }.sendGetAcceptedStateSummaries choice.nodes

/-- `receivedStateSummaryFrontier`. -/
def receivedStateSummaryFrontier : StateSyncer :=
  (s.sendGetStateSummaryFrontiers choice.nodes).requestVotes cfg vm choice

/-- `StateSummaryFrontier`. -/
def onStateSummaryFrontier (summary : Bytes) : StateSyncer :=
  if requestID ≠ s.requestID then s
  else if nodeID ∉ s.seeders.pending then s
  else
    let s := { s with seeders := s.seeders.receive nodeID }
    match vm.parseStateSummary summary with
    | some id => (s.register vm id).receivedStateSummaryFrontier cfg vm choice
    | none => s.receivedStateSummaryFrontier cfg vm choice

/-- `GetStateSummaryFrontierFailed`. Unlike the other handlers it does not look whether the node
    was asked. -/
def onGetStateSummaryFrontierFailed : StateSyncer :=
  if requestID ≠ s.requestID then s
  else
    { s with
      failedSeeders := insert nodeID s.failedSeeders
      seeders := s.seeders.receive nodeID }.receivedStateSummaryFrontier cfg vm choice

/-- The loop of `AcceptedStateSummary` over the summaries that a node has listed: votes for
    summaries that are not known are skipped. -/
def countVotes (weight : Nat) (votes : IDMap Nat) (summaryIDs : List ID) : IDMap Nat :=
  summaryIDs.foldl
    (fun votes id =>
      match votes.lookup id with
      | none => votes
      | some previousWeight => votes.insert id (addVote weight previousWeight)) votes

/-- The loop of `AcceptedStateSummary` that drops the summaries without a sufficient weight. -/
def dropInsufficient (alpha : Nat) (votes : IDMap Nat) (ids : List ID) : IDMap Nat :=
  ids.foldl (fun votes id => if (votes.lookup id).getD 0 < alpha then votes.erase id else votes) votes

/-- The loop of `selectSyncableStateSummary`. -/
def selectLoop (locallyAvailableSummary : Option ID) : List ID → Nat → Option ID → Option ID
  | [], _, preferred => preferred
  | id :: rest, maxSummaryHeight, preferred =>
    if locallyAvailableSummary = some id then some id
    else if maxSummaryHeight ≤ vm.height id then
      selectLoop locallyAvailableSummary rest (vm.height id) (some id)
    else selectLoop locallyAvailableSummary rest maxSummaryHeight preferred

/-- `selectSyncableStateSummary`. -/
def selectSyncableStateSummary (order : RangeOrder ID) (s : StateSyncer) : Option ID :=
  selectLoop vm s.locallyAvailableSummary (order.list s.weightedSummaries.keys) 0 none

/-- The VM is told to accept the summary, and bootstrapping begins if it does not sync to it. -/
def acceptSummary (summary : ID) : StateSyncer :=
  let s := s.emit (.accept summary)
  if choice.startedSyncing = some false then s.emit (.onDoneStateSyncing s.requestID) else s

/-- The part of `AcceptedStateSummary` after the next requests were sent: once no reply is
    outstanding, a summary with a sufficient weight is accepted. -/
def acceptSufficient : StateSyncer :=
  if s.voters.pending.card ≠ 0 then s
  else
    let s := { s with
      weightedSummaries := dropInsufficient cfg.alpha s.weightedSummaries
        (choice.ids.list s.weightedSummaries.keys) }
    if s.weightedSummaries.keys.card = 0 then
      if cfg.retryBootstrap ∧
          wrapSub64 cfg.beacons.totalWeight (cfg.beacons.subsetWeight s.failedVoters) <
            cfg.alpha then
        s.restart cfg vm choice
      else s.emit (.onDoneStateSyncing s.requestID)
    else
      match s.selectSyncableStateSummary vm choice.ids with
      | none => s
      | some summary => s.acceptSummary cfg choice summary

/-- `AcceptedStateSummary`. -/
def onAcceptedStateSummary (summaryIDs : List ID) : StateSyncer :=
  if requestID ≠ s.requestID then s
  else if nodeID ∉ s.voters.pending then s
  else
    ({ s with
      voters := s.voters.receive nodeID
      weightedSummaries := countVotes (cfg.beacons.weight nodeID) s.weightedSummaries
        summaryIDs }.sendGetAcceptedStateSummaries choice.nodes).acceptSufficient cfg vm choice

/-- `GetAcceptedStateSummaryFailed`. -/
def onGetAcceptedStateSummaryFailed : StateSyncer :=
  if requestID ≠ s.requestID then s
  else
    { s with failedVoters := insert nodeID s.failedVoters }.onAcceptedStateSummary cfg vm choice
      nodeID requestID []

/-- The handler of each message. -/
def handle : Msg → StateSyncer
  | .stateSummaryFrontier nodeID requestID summary =>
    s.onStateSummaryFrontier cfg vm choice nodeID requestID summary
  | .getStateSummaryFrontierFailed nodeID requestID =>
    s.onGetStateSummaryFrontierFailed cfg vm choice nodeID requestID
  | .acceptedStateSummary nodeID requestID ids =>
    s.onAcceptedStateSummary cfg vm choice nodeID requestID ids
  | .getAcceptedStateSummaryFailed nodeID requestID =>
    s.onGetAcceptedStateSummaryFailed cfg vm choice nodeID requestID

end

/-- What happens to the syncer: enough stake may be connected when it is started or when a node
    connects (`start`), and messages arrive. -/
inductive Op (cfg : SyncConfig) where
  | start (choice : SyncChoice cfg)
  | receive (msg : Msg) (choice : SyncChoice cfg)

/-- What the step leaves open. -/
def Op.choices {cfg : SyncConfig} : Op cfg → SyncChoice cfg
  | .start choice => choice
  | .receive _ choice => choice

/-- One step. -/
def step (s : StateSyncer) : Op cfg → StateSyncer
  | .start choice =>
    if s.started then s else { s with started := true }.startup cfg vm choice
  | .receive msg choice => (s.emit (.received msg)).handle cfg vm choice msg

/-- The syncer after some steps. -/
def run (startReqID : UInt32) (ops : List (Op cfg)) : StateSyncer :=
  ops.foldl (step cfg vm) (new startReqID)

end StateSyncer

end SavannahNode
