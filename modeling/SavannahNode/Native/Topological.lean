import SavannahNode.Native.Choices
import SavannahNode.Native.SnowballTree

/-!
# Snowman consensus

`snowman.Topological` decides a tree of blocks with one snowball tree per block that has
children (`snow/consensus/snowman/topological.go`, `snowman_block.go`). Methods return the
new state. A nil dereference in Go, which panics, is `none` here. The loops that Go leaves
unbounded run on fuel; the number of blocks is enough for each of them, and running out
is `none` as well. Metrics, logging and health checks are left out. The scratch fields
`leaves` and `kahnNodes`, cleared at the start of each poll, are local values.
-/

namespace SavannahNode

/-- What consensus reads of a block. -/
structure Block where
  id : ID
  parent : ID
  height : Nat
deriving DecidableEq, Repr

/-- `snowmanBlock`: a node of the block tree. `blk` is nil for the genesis. -/
structure SnowmanBlock where
  blk : Option Block
  shouldFalter : Bool
  sb : Option Tree
  children : IDMap Block

namespace SnowmanBlock

/-- A node without children. -/
def new (blk : Option Block) : SnowmanBlock :=
  { blk, shouldFalter := false, sb := none, children := ∅ }

/-- `AddChild`: the first child initializes the snowball instance. -/
def addChild (n : SnowmanBlock) (params : Parameters) (child : Block) : SnowmanBlock :=
  match n.sb with
  | none =>
    { n with
      sb := some (Tree.init params child.id)
      children := (∅ : IDMap Block).insert child.id child }
  | some sb =>
    { n with
      sb := some (sb.add child.id)
      children := n.children.insert child.id child }

/-- `Accepted`: the genesis is defined as accepted. -/
def accepted (n : SnowmanBlock) (decidables : Decidables) : Bool :=
  match n.blk with
  | none => true
  | some blk => decidables.status blk.id = .accepted

/-- The entries of `children` as a range visits them. -/
def rangeChildren (n : SnowmanBlock) (order : RangeOrder ID) : List (ID × Block) :=
  (order.list n.children.keys).filterMap fun id => (n.children.lookup id).map (id, ·)

end SnowmanBlock

/-- `kahnNode`: the number of children that haven't been processed yet, and the votes for
    all the children so far. -/
structure KahnNode where
  inDegree : Int
  votes : Bag

/-- The zero value `kahnNode{}`. -/
def KahnNode.zero : KahnNode := { inDegree := 0, votes := ∅ }

/-- The status of the topological sort: `kahnNodes` and `leaves`. -/
structure Kahn where
  kahnNodes : ID → Option KahnNode
  leaves : Finset ID

/-- `ts.kahnNodes[id]`, the zero value where the map has no entry. -/
def Kahn.node (k : Kahn) (id : ID) : KahnNode := (k.kahnNodes id).getD .zero

/-- `ts.kahnNodes[id] = node`. -/
def Kahn.setNode (k : Kahn) (id : ID) (node : KahnNode) : Kahn :=
  { k with kahnNodes := Function.update k.kahnNodes id (some node) }

/-- `votes`: the votes for all the children of the parent. -/
structure Votes where
  parentID : ID
  votes : Bag

/-- `Topological`. -/
structure Topological where
  params : Parameters
  pollNumber : Nat
  head : ID
  height : Nat
  blocks : IDMap SnowmanBlock
  preferredIDs : Finset ID
  tail : ID
  decidables : Decidables

/-- The error `Add` can return. -/
inductive AddError where
  | errDuplicateAdd
deriving DecidableEq, Repr

namespace Topological

/-- `Initialize`. `status` is what the blocks report when consensus starts. -/
def init (params : Parameters) (rootID : ID) (rootHeight : Nat) (status : ID → Status) :
    Except String Topological :=
  match params.verify with
  | some err => .error err
  | none =>
    .ok {
      params
      pollNumber := 0
      head := rootID
      height := rootHeight
      blocks := (∅ : IDMap SnowmanBlock).insert rootID (.new none)
      preferredIDs := ∅
      tail := rootID
      decidables := { status, calls := [] } }

/-- `Decided`. -/
def decided (ts : Topological) (blk : Block) : Bool := let status := ts.decidables.status blk.id
  -- if the block is decided, then it must have been previously issued
  status.decided || (decide (status = .processing) && decide (blk.height ≤ ts.height))

variable (ts : Topological) (order : RangeOrder ID)

/-- `Processing`: the last accepted block is in the blocks map, but not processing. -/
def processing (blkID : ID) : Bool :=
  if blkID = ts.head then false else (ts.blocks.lookup blkID).isSome

/-- `Preference`. -/
def preference : ID := ts.tail

/-- `Add`. -/
def add (blk : Block) : Topological × Option AddError :=
  if ts.decided blk || ts.processing blk.id then (ts, some .errDuplicateAdd)
  else
    match ts.blocks.lookup blk.parent with
    | none =>
      -- the ancestor must have already been pruned, so the block is transitively rejected
      ({ ts with decidables := ts.decidables.reject blk.id }, none)
    | some parentNode =>
      let blocks := (ts.blocks.insert blk.parent (parentNode.addChild ts.params blk)).insert
        blk.id (.new (some blk))
      if ts.tail = blk.parent then
        ({ ts with
          blocks
          tail := blk.id
          preferredIDs := insert blk.id ts.preferredIDs }, none)
      else ({ ts with blocks }, none)

/-! ## Counting the votes -/

/-- The walk of `calculateInDegree` through all of a block's ancestors, to set up their
    in-degrees. -/
def markAncestorInDegrees (ts : Topological) : Nat → ID → Kahn → Option Kahn
  | 0, _, _ => none
  | fuel + 1, parentID, k => do
    let n ← ts.blocks.lookup parentID
    if n.accepted ts.decidables then return k
    let blk ← n.blk
    let kahn := k.node blk.parent
    let kahn := { kahn with inDegree := kahn.inDegree + 1 }
    let k := k.setNode blk.parent kahn
    -- the in-degree of the ancestors through this block shouldn't be increased again
    if kahn.inDegree ≠ 1 then return k
    -- seen transitively for the first time, so it isn't a leaf
    ts.markAncestorInDegrees fuel blk.parent { k with leaves := k.leaves.erase blk.parent }

/-- One vote of `calculateInDegree`. -/
def countVote (votes : Bag) (k : Kahn) (vote : ID) : Option Kahn :=
  match ts.blocks.lookup vote with
  | none => some k -- the block isn't in the current pending set: the vote is dropped
  | some votedBlock =>
    if votedBlock.accepted ts.decidables then some k
    else do
      let blk ← votedBlock.blk
      -- the parent contains the snowball instance of its children
      let kahn := k.node blk.parent
      let k' := k.setNode blk.parent { kahn with votes := kahn.votes.addCount vote (votes.count vote) }
      if (k.kahnNodes blk.parent).isSome then return k'
      ts.markAncestorInDegrees ts.blocks.keys.card blk.parent
        { k' with leaves := insert blk.parent k'.leaves }

/-- `calculateInDegree`: set up the topological ordering of the blocks reachable from the
    votes. -/
def calculateInDegree (votes : Bag) : Option Kahn :=
  votes.list.foldlM (ts.countVote votes) { kahnNodes := fun _ => none, leaves := ∅ }

/-- `pushVotes`: convert the tree into a branch of snowball instances with at least alpha
    votes. The top of the stack is the head of the list. -/
def pushVotes (ts : Topological) (pops : RangeOrder ID) :
    Nat → Kahn → List Votes → Option (List Votes)
  | 0, k, voteStack => if k.leaves = ∅ then some voteStack else none
  | fuel + 1, k, voteStack =>
    match pops.list k.leaves with
    | [] => some voteStack
    | leafID :: _ => do
      let k := { k with leaves := k.leaves.erase leafID }
      let kahnNode := k.node leafID
      let block ← ts.blocks.lookup leafID
      let voteStack :=
        if ts.params.alpha ≤ kahnNode.votes.len then
          { parentID := leafID, votes := kahnNode.votes } :: voteStack
        else voteStack
      if block.accepted ts.decidables then ts.pushVotes pops fuel k voteStack
      else do
        let blk ← block.blk
        -- remove an inbound edge from the parent kahn node and push the votes
        let parentKahnNode := k.node blk.parent
        let parentKahnNode :=
          { inDegree := parentKahnNode.inDegree - 1
            votes := parentKahnNode.votes.addCount leafID kahnNode.votes.len }
        let k := k.setNode blk.parent parentKahnNode
        let k := if parentKahnNode.inDegree = 0 then
            { k with leaves := insert blk.parent k.leaves }
          else k
        ts.pushVotes pops fuel k voteStack

/-! ## Accepting and rejecting -/

/-- Call `Reject` on blocks. -/
def rejectBlocks (rejected : List (ID × Block)) : Topological :=
  { ts with decidables := rejected.foldl (fun d child => d.reject child.2.id) ts.decidables }

/-- `rejectTransitively`: reject all descendants of the rejected IDs. The top of the stack
    is the head of the list. -/
def rejectTransitively (order : RangeOrder ID) : Nat → List ID → Topological → Option Topological
  | _, [], ts => some ts
  | 0, _ :: _, _ => none
  | fuel + 1, rejectedID :: rejected, ts => do
    let rejectedNode ← ts.blocks.lookup rejectedID
    let ts := { ts with blocks := ts.blocks.erase rejectedID }
    let children := rejectedNode.rangeChildren order
    rejectTransitively order fuel ((children.map Prod.fst).reverse ++ rejected)
      (ts.rejectBlocks children)

/-- `acceptPreferredChild`: accept the preferred child of the block, reject its siblings and
    all their descendants. -/
def acceptPreferredChild (n : SnowmanBlock) : Option Topological := do
  let sb ← n.sb
  let pref := sb.preference
  let child ← n.children.lookup pref
  let ts := { ts with
    decidables := ts.decidables.accept child.id
    -- this is the newest accepted block, so the new head
    head := pref
    height := child.height
    preferredIDs := ts.preferredIDs.erase pref }
  let rejects := (n.rangeChildren order).filter (·.1 ≠ pref)
  rejectTransitively order ts.blocks.keys.card (rejects.map Prod.fst).reverse
    (ts.rejectBlocks rejects)

/-! ## Applying the votes -/

/-- Children that are still in the tree have their confidence reset when they are next
    voted for. -/
def falterChildren (children : List ID) : Topological :=
  children.foldl (fun ts childID =>
    match ts.blocks.lookup childID with
    | none => ts -- already rejected
    | some childBlock =>
      { ts with blocks := ts.blocks.insert childID { childBlock with shouldFalter := true } }) ts

/-- The body of the loop of `vote`, for the vote's block `parentBlock` and the next block
    on the stack. Returns the preference of the block's snowball instance too. -/
def voteOn (parentBlock : SnowmanBlock) (vote : Votes)
    (nextID : ID) : Option (Topological × ID) := do
  let sb ← parentBlock.sb
  let shouldTransitivelyFalter := parentBlock.shouldFalter
  -- the block should falter before applying the vote
  let sb := if shouldTransitivelyFalter then sb.recordUnsuccessfulPoll else sb
  let sb := (sb.recordPoll vote.votes).1
  let parentBlock := { parentBlock with sb := some sb, shouldFalter := false }
  let ts := { ts with blocks := ts.blocks.insert vote.parentID parentBlock }
  -- only accept when you are finalized and the head
  let ts ←
    if sb.finalized && decide (ts.head = vote.parentID) then do
      let ts ← ts.acceptPreferredChild order parentBlock
      pure { ts with blocks := ts.blocks.erase vote.parentID }
    else pure ts
  -- all children without a RecordPoll of their own will need to have their confidence reset
  let children := (order.list parentBlock.children.keys).filter
    fun childID => shouldTransitivelyFalter || decide (childID ≠ nextID)
  return (ts.falterChildren children, sb.preference)

/-- The loop of `vote`. -/
def voteLoop (order : RangeOrder ID) :
    List Votes → Topological → ID → Bool → Option (Topological × ID)
  | [], ts, newPreferred, _ => some (ts, newPreferred)
  | vote :: voteStack, ts, newPreferred, onPreferredBranch =>
    match ts.blocks.lookup vote.parentID with
    | none => some (ts, newPreferred) -- already rejected: stop applying the votes
    | some parentBlock => do
      -- if no child has RecordPoll called, nextID defaults to the nil ID
      let nextID := match voteStack with
        | [] => ID.empty
        | next :: _ => next.parentID
      let (ts, parentPreference) ← ts.voteOn order parentBlock vote nextID
      voteLoop order voteStack ts (if onPreferredBranch then parentPreference else newPreferred)
        (onPreferredBranch && decide (nextID = parentPreference))

/-- `vote`: apply votes to the branch that received an alpha threshold; returns the next
    preferred block after the last preferred block that received one. -/
def vote (voteStack : List Votes) : Option (Topological × ID) :=
  match voteStack with
  | [] => do
    -- the full tree should falter
    let headBlock ← ts.blocks.lookup ts.head
    return ({ ts with blocks := ts.blocks.insert ts.head { headBlock with shouldFalter := true } },
      ts.tail)
  | _ => voteLoop order voteStack ts ts.head true

/-- The loop of `RecordPoll` from the preferred block to the last accepted ancestor. -/
def preferAncestors : Nat → SnowmanBlock → Topological → Option Topological
  | 0, _, _ => none
  | fuel + 1, block, ts =>
    if block.accepted ts.decidables then some ts
    else do
      let blk ← block.blk
      let parent ← ts.blocks.lookup blk.parent
      preferAncestors fuel parent { ts with preferredIDs := insert blk.id ts.preferredIDs }

/-- The loop of `RecordPoll` from the preferred block to the preferred child until there are
    no children. -/
def preferDescendants : Nat → SnowmanBlock → Topological → Option Topological
  | 0, _, _ => none
  | fuel + 1, block, ts =>
    match block.sb with
    | none => some ts
    | some sb => do
      let tail := sb.preference
      let child ← ts.blocks.lookup tail
      preferDescendants fuel child { ts with tail, preferredIDs := insert tail ts.preferredIDs }

/-- The part of `RecordPoll` after `vote`: the new preferred branch goes through
    `preferred`. -/
def prefer (preferred : ID) : Option Topological :=
  -- the tail is guaranteed to already be set correctly
  if preferred ∈ ts.preferredIDs then some ts
  else do
    let ts := { ts with preferredIDs := ∅, tail := preferred }
    let startBlock ← ts.blocks.lookup preferred
    let ts ← preferAncestors ts.blocks.keys.card startBlock ts
    preferDescendants ts.blocks.keys.card startBlock ts

/-- The votes of a poll, in the order they are applied: none if there can't be an alpha
    majority. -/
def voteStack (pops : RangeOrder ID) (voteBag : Bag) : Option (List Votes) :=
  if ts.params.alpha ≤ voteBag.len then do
    let kahn ← ts.calculateInDegree voteBag
    ts.pushVotes pops ts.blocks.keys.card kahn []
  else some []

/-- `RecordPoll`. -/
def recordPoll (pops order : RangeOrder ID) (voteBag : Bag) : Option Topological := do
  let ts := { ts with pollNumber := ts.pollNumber + 1 }
  let voteStack ← ts.voteStack pops voteBag
  let (ts, preferred) ← ts.vote order voteStack
  ts.prefer preferred

/-! ## Runs -/

/-- An operation of the snowman `Consensus` interface. A poll comes with the order in which
    it pops leaves, and the order in which its ranges over children visit them: Go leaves
    both open, and an ID that was popped is never a leaf again in the same poll. -/
inductive Op where
  | add (blk : Block)
  | recordPoll (pops order : RangeOrder ID) (voteBag : Bag)

/-- Apply one operation. -/
def step : Op → Option Topological
  | .add blk => some (ts.add blk).1
  | .recordPoll pops order voteBag => ts.recordPoll pops order voteBag

/-- The state after a sequence of operations. -/
def run (ops : List Op) : Option Topological := ops.foldlM step ts

end Topological

end SavannahNode
