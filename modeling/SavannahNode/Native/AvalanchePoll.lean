import SavannahNode.Native.NodeIDs
import SavannahNode.Native.UniqueBag

/-!
# Polls of avalanche consensus

`earlyTermNoTraversalPoll` (`snow/consensus/avalanche/poll/early_term_no_traversal.go`)
collects the vertices that the sampled validators name. A validator may name several, and
the poll gives each of its samples a bit of its own.
-/

namespace SavannahNode

/-- `earlyTermNoTraversalPoll` of avalanche. -/
structure AvalanchePoll where
  votes : UniqueBag
  polled : NodeIDBag
  alpha : Int

namespace AvalanchePoll

/-- `earlyTermNoTraversalFactory.New`. -/
def new (alpha : Int) (vdrs : NodeIDBag) : AvalanchePoll := { votes := ∅, polled := vdrs, alpha }

/-- `Vote`: register a response for this poll. -/
def vote (p : AvalanchePoll) (vdr : NodeID) (votes : List ID) : AvalanchePoll :=
  let count := p.polled.count vdr
  -- a validator can't respond multiple times
  let polled := p.polled.remove vdr
  { p with
    polled
    votes := (List.range count).foldl (fun b i => b.add (polled.len + i) votes) p.votes }

/-- The voters of the vertices with less than alpha votes. -/
def partialVotes (p : AvalanchePoll) (order : RangeOrder ID) : BitSet :=
  (p.votes.list order).foldl (fun partialVotes vote =>
    let voters := p.votes.getSet vote
    if (voters.len : Int) < p.alpha then partialVotes.union voters else partialVotes) 0

/-- `Finished`. -/
def finished (p : AvalanchePoll) (order : RangeOrder ID) : Bool :=
  let numPending := p.polled.len
  if numPending = 0 then true
  -- enough pending responses to include another vertex
  else if (numPending : Int) > p.alpha then false
  -- assume that all votes for vertices with less than alpha votes will be applied to a
  -- single shared ancestor
  else decide (((p.partialVotes order).len + numPending : Int) < p.alpha)

/-- `Result`. -/
def result (p : AvalanchePoll) : UniqueBag := p.votes

/-- The poll after a sequence of responses. -/
def run (p : AvalanchePoll) (responses : List (NodeID × List ID)) : AvalanchePoll :=
  responses.foldl (fun p r => p.vote r.1 r.2) p

end AvalanchePoll

/-- `noEarlyTermPoll` (`no_early_term.go`). -/
structure NoEarlyTermPoll where
  votes : UniqueBag
  polled : NodeIDBag

namespace NoEarlyTermPoll

/-- `noEarlyTermFactory.New`. -/
def new (vdrs : NodeIDBag) : NoEarlyTermPoll := { votes := ∅, polled := vdrs }

/-- `Vote`. -/
def vote (p : NoEarlyTermPoll) (vdr : NodeID) (votes : List ID) : NoEarlyTermPoll :=
  let count := p.polled.count vdr
  let polled := p.polled.remove vdr
  { polled, votes := (List.range count).foldl (fun b i => b.add (polled.len + i) votes) p.votes }

/-- `Result`. -/
def result (p : NoEarlyTermPoll) : UniqueBag := p.votes

/-- The poll after a sequence of responses. -/
def run (p : NoEarlyTermPoll) (responses : List (NodeID × List ID)) : NoEarlyTermPoll :=
  responses.foldl (fun p r => p.vote r.1 r.2) p

end NoEarlyTermPoll

end SavannahNode
