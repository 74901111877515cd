import SavannahNode.Native.Choices
import SavannahNode.Native.NodeIDs

/-!
# The chain router

`snow/networking/router/chain_router.go`, with the timeouts that `snow/networking/timeout` and
`utils/timer` keep for it. A request is registered in two steps, one under the lock of the router
and one under that of the timeout manager; a timeout that is due is taken out of the map under
the latter, and its handler runs afterwards. Other calls may come in between.

The hash of a request is the request itself. Which timeout is due, and when, is left open.
-/

namespace SavannahNode

/-- `message.Op`, as far as a chain handles it through the router. -/
inductive MessageOp where
  | getAcceptedFrontier | acceptedFrontier | getAccepted | accepted | getAncestors | ancestors
  | get | put | pushQuery | pullQuery | chits | appRequest | appResponse | appGossip
  | getStateSummaryFrontier | stateSummaryFrontier | getAcceptedStateSummary
  | acceptedStateSummary | chitsV2
  | getAcceptedFrontierFailed | getAcceptedFailed | getAncestorsFailed | getFailed | queryFailed
  | appRequestFailed | getStateSummaryFrontierFailed | getAcceptedStateSummaryFailed
deriving DecidableEq, Repr

namespace MessageOp

/-- `ResponseToFailedOps`. -/
def responseToFailedOps : MessageOp → Option MessageOp
  | acceptedFrontier => some getAcceptedFrontierFailed
  | accepted => some getAcceptedFailed
  | ancestors => some getAncestorsFailed
  | put => some getFailed
  | chits => some queryFailed
  | chitsV2 => some queryFailed
  | appResponse => some appRequestFailed
  | stateSummaryFrontier => some getStateSummaryFrontierFailed
  | acceptedStateSummary => some getAcceptedStateSummaryFailed
  | _ => none

/-- `FailedToResponseOps`. -/
def failedToResponseOps : MessageOp → Option MessageOp
  | getAcceptedFrontierFailed => some acceptedFrontier
  | getAcceptedFailed => some accepted
  | getAncestorsFailed => some ancestors
  | getFailed => some put
  | queryFailed => some chits
  | appRequestFailed => some appResponse
  | getStateSummaryFrontierFailed => some stateSummaryFrontier
  | getAcceptedStateSummaryFailed => some acceptedStateSummary
  | _ => none

/-- `UnrequestedOps`. -/
def unrequestedOps : List MessageOp :=
  [getAcceptedFrontier, getAccepted, getAncestors, get, pushQuery, pullQuery, appRequest,
    appGossip, getStateSummaryFrontier, getAcceptedStateSummary]

/-- Both versions of a vote count as the first one. -/
def standard (op : MessageOp) : MessageOp := if op = chitsV2 then chits else op

end MessageOp

/-- `constants.GossipMsgRequestID`. -/
def gossipMsgRequestID : UInt32 := 4294967295

/-- What the router reads of an inbound message. -/
structure InboundMessage where
  op : MessageOp
  nodeID : NodeID
  chainID : ID
  requestID : UInt32
deriving DecidableEq

/-- What the hash of a request is taken of. -/
structure RequestKey where
  nodeID : NodeID
  chainID : ID
  requestID : UInt32
  op : MessageOp
deriving DecidableEq

/-- `createRequestID`. -/
def createRequestID (nodeID : NodeID) (chainID : ID) (requestID : UInt32) (op : MessageOp) :
    RequestKey := ⟨nodeID, chainID, requestID, op.standard⟩

/-- What the router reads of the handler of a chain. -/
structure ChainHandler where
  nodeID : NodeID
  validatorOnly : Bool
  validators : Finset NodeID
  executing : Bool

/-- `IsValidator`. -/
def ChainHandler.isValidator (chain : ChainHandler) (nodeID : NodeID) : Bool :=
  !chain.validatorOnly || decide (nodeID = chain.nodeID) || decide (nodeID ∈ chain.validators)

/-- The router and its timeouts. -/
structure ChainRouter where
  chains : IDMap ChainHandler
  timedRequests : Finset RequestKey
  /-- the calls of `RegisterRequest` that have not reached the timeout manager -/
  registering : List RequestKey
  timeoutMap : Finset RequestKey
  /-- the timeout that was taken out of the map, its handler not yet run -/
  firing : Option RequestKey
  /-- the messages pushed to the chains -/
  pushed : List InboundMessage

namespace ChainRouter

/-- The message the handler of a timeout passes on. -/
def failedRequest (id : RequestKey) : Option InboundMessage :=
  id.op.responseToFailedOps.map fun failedOp => ⟨failedOp, id.nodeID, id.chainID, id.requestID⟩

variable (cr : ChainRouter)

/-- `Push` on the chain of the message. -/
def push (msg : InboundMessage) : ChainRouter := { cr with pushed := cr.pushed ++ [msg] }

/-- The first half of `RegisterRequest`, under the lock of the router. -/
def registerRequest (nodeID : NodeID) (chainID : ID) (requestID : UInt32) (op : MessageOp) :
    ChainRouter :=
  let uniqueRequestID := createRequestID nodeID chainID requestID op
  let cr := { cr with timedRequests := insert uniqueRequestID cr.timedRequests }
  match op.responseToFailedOps with
  | none => cr
  | some _ => { cr with registering := uniqueRequestID :: cr.registering }

/-- The second half of `RegisterRequest`: the timeout manager puts a timeout. -/
def putTimeout (id : RequestKey) : ChainRouter :=
  if id ∈ cr.registering then
    { cr with registering := cr.registering.erase id, timeoutMap := insert id cr.timeoutMap }
  else cr

/-- `RegisterResponse` and `RemoveRequest` of the timeout manager. -/
def removeTimeout (id : RequestKey) : ChainRouter := { cr with timeoutMap := cr.timeoutMap.erase id }

/-- `clearRequest`. -/
def clearRequest (op : MessageOp) (nodeID : NodeID) (chainID : ID) (requestID : UInt32) :
    Option (RequestKey × ChainRouter) :=
  let uniqueRequestID := createRequestID nodeID chainID requestID op
  if uniqueRequestID ∈ cr.timedRequests then
    some (uniqueRequestID, { cr with timedRequests := cr.timedRequests.erase uniqueRequestID })
  else none

/-- `HandleInbound`. -/
def handleInbound (msg : InboundMessage) : ChainRouter :=
  match cr.chains.lookup msg.chainID with
  | none => cr
  | some chain =>
    if chain.isValidator msg.nodeID = false then cr
    else if msg.op ∈ MessageOp.unrequestedOps ∨
        (msg.op = .put ∧ msg.requestID = gossipMsgRequestID) then
      if chain.executing then cr else cr.push msg
    else
      match msg.op.failedToResponseOps with
      | some expectedResponse =>
        match cr.clearRequest expectedResponse msg.nodeID msg.chainID msg.requestID with
        | none => cr
        | some (uniqueRequestID, cr) => (cr.removeTimeout uniqueRequestID).push msg
      | none =>
        if chain.executing then cr
        else
          match cr.clearRequest msg.op msg.nodeID msg.chainID msg.requestID with
          | none => cr
          | some (uniqueRequestID, cr) => (cr.removeTimeout uniqueRequestID).push msg

/-- `getNextTimeoutHandler`, when the timeout of `id` is due. The timer runs one handler after
    the other. -/
def fire (id : RequestKey) : ChainRouter :=
  if id ∈ cr.timeoutMap ∧ cr.firing = none then { cr.removeTimeout id with firing := some id }
  else cr

/-- The handler that was taken out runs. -/
def handleTimeout : ChainRouter :=
  match cr.firing.bind failedRequest with
  | none => { cr with firing := none }
  | some msg => { cr with firing := none }.handleInbound msg

/-- What happens to a router. A failure may also be received without a timeout. -/
inductive Op where
  | registerRequest (nodeID : NodeID) (chainID : ID) (requestID : UInt32) (op : MessageOp)
  | putTimeout (id : RequestKey)
  | receive (msg : InboundMessage)
  | fire (id : RequestKey)
  | handleTimeout
  | setValidators (chainID : ID) (validators : Finset NodeID)
  | setExecuting (chainID : ID) (executing : Bool)
deriving DecidableEq

/-- The handler of a chain changes. -/
def updateChain (chainID : ID) (f : ChainHandler → ChainHandler) : ChainRouter :=
  match cr.chains.lookup chainID with
  | none => cr
  | some chain => { cr with chains := cr.chains.insert chainID (f chain) }

/-- One step. -/
def step : Op → ChainRouter
  | .registerRequest nodeID chainID requestID op => cr.registerRequest nodeID chainID requestID op
  | .putTimeout id => cr.putTimeout id
  | .receive msg => cr.handleInbound msg
  | .fire id => cr.fire id
  | .handleTimeout => cr.handleTimeout
  | .setValidators chainID validators =>
    cr.updateChain chainID fun chain => { chain with validators := validators }
  | .setExecuting chainID executing =>
    cr.updateChain chainID fun chain => { chain with executing := executing }

/-- A run of a router that has these chains. -/
def run (chains : IDMap ChainHandler) (ops : List Op) : ChainRouter :=
  ops.foldl step ⟨chains, ∅, [], ∅, none, []⟩

end ChainRouter

end SavannahNode
