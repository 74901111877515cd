import SavannahNode.Native.Bag
import SavannahNode.Native.LinkedHashmap
import SavannahNode.Native.NodeIDs

/-!
# Polls of snowman consensus

`earlyTermNoTraversalPoll` (`snow/consensus/snowman/poll/early_term_no_traversal.go`) collects
the votes of the sampled validators, and finishes as soon as it can without looking at the
block tree. `set` (`set.go`) holds the polls that are going on, the oldest first; a poll that
has finished waits for the older ones.
-/

namespace SavannahNode

/-- `earlyTermNoTraversalPoll` of snowman. -/
structure SnowmanPoll where
  votes : Bag
  polled : NodeIDBag
  alpha : Int

namespace SnowmanPoll

/-- `earlyTermNoTraversalFactory.New`. -/
def new (alpha : Int) (vdrs : NodeIDBag) : SnowmanPoll := { votes := ∅, polled := vdrs, alpha }

/-- `Vote`: register a response for this poll. -/
def vote (p : SnowmanPoll) (vdr : NodeID) (vote : ID) : SnowmanPoll :=
  { p with
    -- a validator can't respond multiple times
    polled := p.polled.remove vdr
    votes := p.votes.addCount vote (p.polled.count vdr) }

/-- `Drop` any future response for this poll. -/
def drop (p : SnowmanPoll) (vdr : NodeID) : SnowmanPoll := { p with polled := p.polled.remove vdr }

/-- `Finished`. -/
def finished (p : SnowmanPoll) : Bool :=
  let remaining := p.polled.len
  let received := p.votes.len
  let freq := p.votes.modeFreq
  decide (remaining = 0) || -- all k nodes responded
    decide (p.alpha ≤ freq) || -- an alpha majority has returned
    decide ((received + remaining : Int) < p.alpha) -- an alpha majority can never return

/-- `Result`. -/
def result (p : SnowmanPoll) : Bag := p.votes

/-- A response of a validator, or the news that there will be none. -/
inductive Call where
  | vote (vdr : NodeID) (vote : ID)
  | drop (vdr : NodeID)

/-- Apply one call. -/
def step (p : SnowmanPoll) : Call → SnowmanPoll
  | .vote vdr id => p.vote vdr id
  | .drop vdr => p.drop vdr

/-- The poll after a sequence of calls. -/
def run (p : SnowmanPoll) (calls : List Call) : SnowmanPoll := calls.foldl step p

end SnowmanPoll

/-- `set`: the polls by request ID. -/
structure SnowmanPolls where
  polls : LinkedHashmap Nat SnowmanPoll

namespace SnowmanPolls

/-- `NewSet`. -/
def empty : SnowmanPolls := ⟨[]⟩

variable (s : SnowmanPolls) (requestID : Nat)

/-- `Add`: returns whether the poll was registered. -/
def add (alpha : Int) (requestID : Nat) (vdrs : NodeIDBag) : Bool × SnowmanPolls :=
  match LinkedHashmap.get s.polls requestID with
  | some _ => (false, s)
  | none => (true, ⟨LinkedHashmap.put s.polls requestID (.new alpha vdrs)⟩)

/-- The loop of `processFinishedPolls`, from oldest to newest, with the results so far. Every
    iteration that goes on deletes a poll. -/
def processLoop : Nat → LinkedHashmap.Iter Nat SnowmanPoll → List Bag → SnowmanPolls →
    List Bag × SnowmanPolls
  | 0, _, results, s => (results, s)
  | fuel + 1, iter, results, s =>
    match iter.advance s.polls with
    | (true, iter@⟨some (requestID, p), _, _, _⟩) =>
      if p.finished then
        processLoop fuel iter (results ++ [p.result]) ⟨LinkedHashmap.delete s.polls requestID⟩
      else (results, s)
    | _ => (results, s)

/-- `processFinishedPolls`. -/
def processFinishedPolls : List Bag × SnowmanPolls := processLoop (s.polls.length + 1) {} [] s

/-- Let the poll of a request register a response. -/
def respond (f : SnowmanPoll → SnowmanPoll) : List Bag × SnowmanPolls :=
  match LinkedHashmap.get s.polls requestID with
  | none => ([], s)
  | some p =>
    let s : SnowmanPolls :=
      ⟨s.polls.map fun entry => if entry.1 = requestID then (entry.1, f entry.2) else entry⟩
    if (f p).finished then s.processFinishedPolls else ([], s)

/-- `Vote`. -/
def vote (s : SnowmanPolls) (requestID : Nat) (vdr : NodeID) (vote : ID) : List Bag × SnowmanPolls :=
  s.respond requestID (·.vote vdr vote)

/-- `Drop`. -/
def drop (s : SnowmanPolls) (requestID : Nat) (vdr : NodeID) : List Bag × SnowmanPolls :=
  s.respond requestID (·.drop vdr)

end SnowmanPolls

end SavannahNode
