import SavannahNode.Native.Snowball

/-!
# The snowball tree

`snowball.Tree` runs one snowball instance per bit of disagreement in a modified
patricia tree (`snow/consensus/snowball/tree.go`). Nodes are mutated in place and
never shared in Go, so each method here returns the new node. Go's nil `node` is
`Node.nil`: its methods are never called, and return an arbitrary value here.
-/

namespace SavannahNode

/-- The fields of `unaryNode` apart from its child: the voting on the bits
    `[decidedPrefix, commonPrefix)`. -/
structure UnaryNode where
  preference : ID
  decidedPrefix : Nat
  commonPrefix : Nat
  snowball : UnarySnowball
  shouldReset : Bool
deriving DecidableEq, Repr

/-- The fields of `binaryNode` apart from its children: the voting on one bit. -/
structure BinaryNode where
  preferences : Pair ID
  bit : Nat
  snowball : BinarySnowball
  shouldReset : Pair Bool
deriving DecidableEq, Repr

/-- A node of the tree. `children bit` is Go's `children[bit]`. -/
inductive Node where
  | nil
  | unary (u : UnaryNode) (child : Node)
  | binary (b : BinaryNode) (children : Bool → Node)

instance : Inhabited Node := ⟨.nil⟩

/-- The children of a binary node: `node` at `bit`, `other` at `1 - bit`. -/
def branches (bit : Bool) (node other : Node) : Bool → Node :=
  fun i => if i = bit then node else other

@[simp] theorem branches_self (bit : Bool) (node other : Node) :
    branches bit node other bit = node := if_pos rfl

@[simp] theorem branches_not (bit : Bool) (node other : Node) :
    branches bit node other (!bit) = other := if_neg (by simp)

/-- A property of both children is one of the two nodes. -/
theorem forall_branches {P : Node → Prop} {bit : Bool} {node other : Node} :
    (∀ i, P (branches bit node other i)) ↔ P node ∧ P other := by
  constructor
  · intro h
    have h1 := h bit
    have h2 := h !bit
    rw [branches_self] at h1
    rw [branches_not] at h2
    exact ⟨h1, h2⟩
  rintro ⟨h1, h2⟩ i
  unfold branches
  split
  · exact h1
  · exact h2

namespace Node

/-- Whether the node is Go's `nil`. -/
def isNil : Node → Bool
  | nil => true
  | _ => false

/-- `Preference`: the preferred choice of this sub-tree. -/
def preference : Node → ID
  | nil => ID.empty
  | unary u _ => u.preference
  | binary b _ => b.preferences.get b.snowball.pref

/-- `DecidedPrefix`: the number of assumed decided bits of this node. -/
def decidedPrefix : Node → Nat
  | nil => 0
  | unary u _ => u.decidedPrefix
  | binary b _ => b.bit

/-- `Finalized`. -/
def finalized : Node → Bool
  | nil => false
  | unary u _ => u.snowball.finalized
  | binary b _ => b.snowball.finalized

end Node

/-- A reset pending at the parent reaches the node: reset it, and make sure its child is
    also reset correctly. -/
def UnaryNode.markReset (u : UnaryNode) (reset : Bool) : UnaryNode :=
  if reset then { u with snowball := u.snowball.recordUnsuccessfulPoll, shouldReset := true }
  else u

/-- A reset pending at the parent reaches the node, in a poll that goes to branch `bit`;
    the other branch didn't get the threshold of votes in any case. -/
def BinaryNode.markReset (b : BinaryNode) (reset bit : Bool) : BinaryNode :=
  let b := if reset then
      { b with
        snowball := b.snowball.recordUnsuccessfulPoll
        shouldReset := b.shouldReset.set bit true }
    else b
  { b with shouldReset := b.shouldReset.set (!bit) true }

/-- The binary node a unary node is split into at bit `index`, with `u`'s agreement so
    far transferred to `u`'s own bit. -/
def UnaryNode.toBinary (u : UnaryNode) (params : Parameters) (newChoice : ID) (index : Nat) :
    BinaryNode :=
  let bit := u.preference.bit index
  { preferences := ((Pair.both newChoice).set bit u.preference)
    bit := index
    snowball := u.snowball.extend params.betaRogue bit
    shouldReset := Pair.both u.shouldReset }

/-- The chain of fresh unary instances below a new branch. -/
def newChild (params : Parameters) (newChoice : ID) (index : Nat) : Node :=
  .unary
    { preference := newChoice
      decidedPrefix := index + 1 -- the new child assumes this branch has decided in its favor
      commonPrefix := numBits -- the new child has no conflicts under this branch
      snowball := UnarySnowball.init params.betaVirtuous
      shouldReset := false } .nil

/-- The part of `unaryNode.Add` after the first difference was found at `index`: the
    cases 2 to 5 of its comment. -/
def UnaryNode.split (u : UnaryNode) (child : Node) (params : Parameters) (newChoice : ID)
    (index : Nat) : Node :=
  let bit := u.preference.bit index
  let b := u.toBinary params newChoice index
  let newChild := newChild params newChoice index
  -- the new branch only gets a child where the old branch has one
  let childOrNil := if child.isNil then .nil else newChild
  if u.decidedPrefix = u.commonPrefix - 1 then
    -- this node was only voting over one bit
    .binary b (branches bit child childOrNil)
  else if index = u.decidedPrefix then
    -- this node was split on the first bit
    .binary b (branches bit (.unary { u with decidedPrefix := u.decidedPrefix + 1 } child) newChild)
  else if index = u.commonPrefix - 1 then
    -- this node was split on the last bit
    .unary { u with commonPrefix := u.commonPrefix - 1 } (.binary b (branches bit child childOrNil))
  else
    -- this node was split on an interior bit
    .unary
      { preference := u.preference
        decidedPrefix := u.decidedPrefix
        commonPrefix := index
        snowball := u.snowball.clone
        shouldReset := false }
      (.binary b (branches bit (.unary { u with decidedPrefix := index + 1 } child) newChild))

namespace Node

/-- `Add`: a new choice to vote on; returns the new node. -/
def add (params : Parameters) : Node → ID → Node
  | nil, _ => nil
  | unary u child, newChoice =>
    if u.snowball.finalized then .unary u child -- the tree is finalized, or it's a leaf node
    else
      match firstDifferenceSubset u.decidedPrefix u.commonPrefix u.preference newChoice with
      | none => .unary u (child.add params newChoice) -- a nil child stays nil
      | some index => u.split child params newChoice index
  | binary b children, id =>
    let bit := id.bit b.bit
    if !(children bit).isNil &&
        equalSubset (b.bit + 1) (children bit).decidedPrefix (b.preferences.get bit) id then
      .binary b (Function.update children bit ((children bit).add params id))
    else .binary b children

/-- `RecordPoll`: apply the votes, reset the model if needed; returns the new node and
    whether the vote was successful. -/
def recordPoll (params : Parameters) : Node → Bag → Bool → Node × Bool
  | nil, _, _ => (nil, false)
  | unary u child, votes, reset =>
    -- if my parent didn't get enough votes previously, then neither did I
    let u := u.markReset reset
    if votes.len < params.alpha then
      (.unary { u with
        snowball := u.snowball.recordUnsuccessfulPoll
        shouldReset := true } child, false)
    else
      let u := { u with snowball := u.snowball.recordSuccessfulPoll }
      if child.isNil then (.unary { u with shouldReset := false } child, true)
      else
        let newChild := (child.recordPoll params votes u.shouldReset).1
        if u.snowball.finalized then (newChild, true) -- I'm now decided, return my child
        else
          (.unary { u with preference := newChild.preference, shouldReset := false } newChild, true)
  | binary b children, votes, reset =>
    let splitVotes := votes.split b.bit
    let bit : Bool := params.alpha ≤ (splitVotes.get true).len
    let b := b.markReset reset bit
    let prunedVotes := splitVotes.get bit
    if prunedVotes.len < params.alpha then
      (.binary { b with
        snowball := b.snowball.recordUnsuccessfulPoll
        shouldReset := b.shouldReset.set bit true } children, false)
    else
      let b := { b with snowball := b.snowball.recordSuccessfulPoll bit }
      if (children bit).isNil then
        (.binary { b with shouldReset := b.shouldReset.set bit false } children, true)
      else
        let filteredVotes :=
          prunedVotes.filter (b.bit + 1) (children bit).decidedPrefix (b.preferences.get bit)
        let newChild := ((children bit).recordPoll params filteredVotes (b.shouldReset.get bit)).1
        if b.snowball.finalized then (newChild, true) -- we must have decided on bit
        else
          (.binary { b with
            preferences := b.preferences.set bit newChild.preference
            shouldReset := b.shouldReset.set bit false }
            (Function.update children bit newChild), true)

end Node

/-- `Tree`. -/
structure Tree where
  node : Node
  params : Parameters
  shouldReset : Bool

namespace Tree

/-- `Tree.Initialize`. -/
def init (params : Parameters) (choice : ID) : Tree :=
  { params
    shouldReset := false
    node := .unary
      { preference := choice
        decidedPrefix := 0
        commonPrefix := numBits -- the initial state has no conflicts
        snowball := UnarySnowball.init params.betaVirtuous
        shouldReset := false } .nil }

/-- `Preference`, promoted from the root. -/
def preference (t : Tree) : ID := t.node.preference

/-- `DecidedPrefix`, promoted from the root. -/
def decidedPrefix (t : Tree) : Nat := t.node.decidedPrefix

/-- `Finalized`, promoted from the root. -/
def finalized (t : Tree) : Bool := t.node.finalized

/-- `Tree.Add`. -/
def add (t : Tree) (choice : ID) : Tree :=
  -- make sure that we haven't already decided against this new id
  if equalSubset 0 t.node.decidedPrefix t.preference choice then
    { t with node := t.node.add t.params choice }
  else t

/-- `Tree.RecordPoll`. -/
def recordPoll (t : Tree) (votes : Bag) : Tree × Bool :=
  let filteredVotes := votes.filter 0 t.node.decidedPrefix t.preference
  let (node, successful) := t.node.recordPoll t.params filteredVotes t.shouldReset
  ({ t with node, shouldReset := false }, successful)

/-- `Tree.RecordUnsuccessfulPoll`. -/
def recordUnsuccessfulPoll (t : Tree) : Tree := { t with shouldReset := true }

/-- An operation of the snowball `Consensus` interface. -/
inductive Op where
  | add (choice : ID)
  | recordPoll (votes : Bag)
  | recordUnsuccessfulPoll

/-- Apply one operation; the boolean is the result of a `recordPoll`. -/
def step (t : Tree) : Op → Tree × Option Bool
  | .add choice => (t.add choice, none)
  | .recordPoll votes => let r := t.recordPoll votes; (r.1, some r.2)
  | .recordUnsuccessfulPoll => (t.recordUnsuccessfulPoll, none)

/-- The tree after a sequence of operations. -/
def run (t : Tree) (ops : List Op) : Tree := ops.foldl (fun t op => (t.step op).1) t

end Tree

end SavannahNode
