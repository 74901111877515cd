import SavannahNode.Native.SnowballTree

/-!
# Lazy and eager resets of the snowball tree

The tree defers resets: a node that misses `alpha` votes sets a `shouldReset` flag,
and the sub-tree below it is only reset when a later poll reaches it. Here the eager
tree is defined, in which no flag is ever set and a node that does not get `alpha`
votes sets the confidence of its whole sub-tree to `0` at once, and the lazy tree is
shown to simulate it.

`Node.flush` is the simulation: it carries out the pending resets of a lazy node.
Every later statement about the confidence counters is proved on flushed trees.
-/

namespace SavannahNode

open Function BinaryNode

namespace Node

/-- Set the confidence of all snowball instances in the sub-tree to `0`. -/
def resetConfidence : Node → Node
  | nil => nil
  | unary u child =>
    .unary { u with snowball := u.snowball.recordUnsuccessfulPoll } child.resetConfidence
  | binary b children =>
    .binary { b with snowball := b.snowball.recordUnsuccessfulPoll }
      fun i => (children i).resetConfidence

/-- `recordPoll` without flags: a sub-tree that does not get `alpha` votes is reset on
    the spot. -/
def recordPollEager (params : Parameters) : Node → Bag → Node × Bool
  | nil, _ => (nil, false)
  | unary u child, votes =>
    if votes.len < params.alpha then ((unary u child).resetConfidence, false)
    else
      let u := { u with snowball := u.snowball.recordSuccessfulPoll }
      if child.isNil then (.unary u child, true)
      else
        let newChild := (child.recordPollEager params votes).1
        if u.snowball.finalized then (newChild, true)
        else (.unary { u with preference := newChild.preference } newChild, true)
  | binary b children, votes =>
    let splitVotes := votes.split b.bit
    let bit : Bool := params.alpha ≤ (splitVotes.get true).len
    let prunedVotes := splitVotes.get bit
    if prunedVotes.len < params.alpha then ((binary b children).resetConfidence, false)
    else
      let b := { b with snowball := b.snowball.recordSuccessfulPoll bit }
      -- the other branch is passed no votes
      let other := (children !bit).resetConfidence
      if (children bit).isNil then (.binary b (Function.update children (!bit) other), true)
      else
        let filteredVotes :=
          prunedVotes.filter (b.bit + 1) (children bit).decidedPrefix (b.preferences.get bit)
        let newChild := ((children bit).recordPollEager params filteredVotes).1
        if b.snowball.finalized then (newChild, true)
        else
          (.binary { b with preferences := b.preferences.set bit newChild.preference }
            (branches bit newChild other), true)

/-- Carry out the pending resets of a sub-tree, itself to be reset first when `reset`. -/
def flush : Node → Bool → Node
  | nil, _ => nil
  | unary u child, reset =>
    .unary { u with
      snowball := if reset then u.snowball.recordUnsuccessfulPoll else u.snowball
      shouldReset := false } (child.flush (reset || u.shouldReset))
  | binary b children, reset =>
    .binary { b with
      snowball := if reset then b.snowball.recordUnsuccessfulPoll else b.snowball
      shouldReset := Pair.both false }
      fun i => (children i).flush (reset || b.shouldReset.get i)

/-- A unary node with a pending reset below it has been reset itself. Splits rely on
    this: they move the node below its own flag. -/
def FlagsReset : Node → Prop
  | nil => True
  | unary u child =>
    (u.shouldReset = true → u.snowball.snowflake.confidence = 0) ∧ child.FlagsReset
  | binary _ children => ∀ i, (children i).FlagsReset

end Node

/-- The tree without `shouldReset` flags. -/
structure EagerTree where
  node : Node
  params : Parameters

namespace EagerTree

/-- `Tree.Initialize`. -/
def init (params : Parameters) (choice : ID) : EagerTree :=
  { node := (Tree.init params choice).node, params }

/-- `Preference`. -/
def preference (t : EagerTree) : ID := t.node.preference

/-- `DecidedPrefix`. -/
def decidedPrefix (t : EagerTree) : Nat := t.node.decidedPrefix

/-- `Finalized`. -/
def finalized (t : EagerTree) : Bool := t.node.finalized

/-- `Add`. -/
def add (t : EagerTree) (choice : ID) : EagerTree :=
  if equalSubset 0 t.node.decidedPrefix t.preference choice then
    { t with node := t.node.add t.params choice }
  else t

/-- `RecordPoll`. -/
def recordPoll (t : EagerTree) (votes : Bag) : EagerTree × Bool :=
  let filteredVotes := votes.filter 0 t.node.decidedPrefix t.preference
  let (node, successful) := t.node.recordPollEager t.params filteredVotes
  ({ t with node }, successful)

/-- `RecordUnsuccessfulPoll`: the whole tree is reset at once. -/
def recordUnsuccessfulPoll (t : EagerTree) : EagerTree :=
  { t with node := t.node.resetConfidence }

/-- Apply one operation; the boolean is the result of a `recordPoll`. -/
def step (t : EagerTree) : Tree.Op → EagerTree × Option Bool
  | .add choice => (t.add choice, none)
  | .recordPoll votes => let r := t.recordPoll votes; (r.1, some r.2)
  | .recordUnsuccessfulPoll => (t.recordUnsuccessfulPoll, none)

/-- The tree after a sequence of operations. -/
def run (t : EagerTree) (ops : List Tree.Op) : EagerTree := ops.foldl (fun t op => (t.step op).1) t

end EagerTree

/-! ## What a reset leaves alone -/

namespace UnarySnowball

/-- Resetting an instance without confidence does nothing. -/
theorem recordUnsuccessfulPoll_of_confidence {sb : UnarySnowball}
    (h : sb.snowflake.confidence = 0) : sb.recordUnsuccessfulPoll = sb := by
  obtain ⟨⟨beta, confidence, finalized⟩, n⟩ := sb
  subst h
  rfl

end UnarySnowball

@[simp] theorem BinarySnowball.finalized_recordUnsuccessfulPoll (sb : BinarySnowball) :
    sb.recordUnsuccessfulPoll.finalized = sb.finalized := rfl

namespace Node

section

variable (n : Node) (r : Bool)

@[simp] theorem isNil_flush : (n.flush r).isNil = n.isNil := by
  cases n <;> rfl

@[simp] theorem decidedPrefix_flush : (n.flush r).decidedPrefix = n.decidedPrefix := by
  cases n <;> rfl

@[simp] theorem preference_flush : (n.flush r).preference = n.preference := by
  cases n <;> cases r <;> rfl

@[simp] theorem finalized_flush : (n.flush r).finalized = n.finalized := by
  cases n <;> cases r <;> rfl

/-- Resetting a flushed sub-tree is flushing it with a reset. -/
theorem resetConfidence_flush : (n.flush r).resetConfidence = n.flush true := by
  induction n generalizing r with
  | nil => rfl
  | unary u child ih =>
    simp only [flush, resetConfidence, ih, Bool.true_or, if_true]
    cases r <;> rfl
  | binary b children ih =>
    simp only [flush, resetConfidence, ih, Bool.true_or, if_true]
    cases r <;> rfl

theorem flush_resetConfidence : n.resetConfidence.flush r = n.flush true := by
  induction n generalizing r with
  | nil => rfl
  | unary u child ih =>
    simp only [flush, resetConfidence, ih, Bool.true_or, if_true]
    cases r <;> rfl
  | binary b children ih =>
    simp only [flush, resetConfidence, ih, Bool.true_or, if_true]
    cases r <;> rfl

end

end Node

/-! ## Polls -/

namespace UnaryNode

variable (u : UnaryNode) (reset : Bool)

@[simp] theorem markReset_preference : (u.markReset reset).preference = u.preference := by
  cases reset <;> rfl

@[simp] theorem markReset_decidedPrefix : (u.markReset reset).decidedPrefix = u.decidedPrefix := by
  cases reset <;> rfl

@[simp] theorem markReset_commonPrefix : (u.markReset reset).commonPrefix = u.commonPrefix := by
  cases reset <;> rfl

@[simp] theorem markReset_snowball : (u.markReset reset).snowball =
    if reset then u.snowball.recordUnsuccessfulPoll else u.snowball := by
  cases reset <;> rfl

@[simp] theorem markReset_shouldReset :
    (u.markReset reset).shouldReset = (reset || u.shouldReset) := by
  cases reset <;> rfl

end UnaryNode

namespace BinaryNode

variable (b : BinaryNode) (reset bit : Bool) {params : Parameters}

@[simp] theorem markReset_preferences : (b.markReset reset bit).preferences = b.preferences := by
  cases reset <;> rfl

@[simp] theorem markReset_bit : (b.markReset reset bit).bit = b.bit := by
  cases reset <;> rfl

@[simp] theorem markReset_snowball : (b.markReset reset bit).snowball =
    if reset then b.snowball.recordUnsuccessfulPoll else b.snowball := by
  cases reset <;> rfl

@[simp] theorem markReset_shouldReset_self :
    (b.markReset reset bit).shouldReset.get bit = (reset || b.shouldReset.get bit) := by
  cases reset <;> cases bit <;> rfl

@[simp] theorem markReset_shouldReset_not :
    (b.markReset reset bit).shouldReset.get (!bit) = true := by
  cases reset <;> cases bit <;> rfl

end BinaryNode

namespace Node

/-- A nil child has nothing to flush. -/
theorem flush_of_isNil {n : Node} (h : n.isNil = true) (r : Bool) : n.flush r = n := by
  cases n with
  | nil => rfl
  | unary u child => cases h
  | binary b children => cases h

/-- Flushing after a lazy poll is polling the flushed node eagerly. -/
theorem recordPoll_flush (params : Parameters) (n : Node) (votes : Bag) (reset : Bool) :
    ((n.recordPoll params votes reset).1.flush false, (n.recordPoll params votes reset).2) =
      (n.flush reset).recordPollEager params votes := by
  induction n generalizing votes reset with
  | nil => rfl
  | unary u child ih =>
    rw [recordPoll, flush, recordPollEager]
    by_cases hlt : votes.len < params.alpha
    · rw [if_pos hlt, if_pos hlt]
      cases reset <;> simp [flush, resetConfidence, resetConfidence_flush]
    rw [if_neg hlt, if_neg hlt]
    cases hnil : child.isNil with
    | true => simp [hnil, flush, flush_of_isNil hnil]
    | false =>
      simp only [isNil_flush, hnil, Bool.false_eq_true, if_false, UnaryNode.markReset_snowball,
        UnaryNode.markReset_shouldReset, ← ih]
      generalize (if reset = true then u.snowball.recordUnsuccessfulPoll else u.snowball) = sb
      by_cases hfin : sb.recordSuccessfulPoll.finalized = true
      · simp [hfin]
      · simp [hfin, flush]
  | binary b children ih =>
    rw [recordPoll, flush, recordPollEager]
    generalize decide (params.alpha ≤ (((votes.split b.bit).get true).len : Int)) = bit
    by_cases hlt : ((votes.split b.bit).get bit).len < params.alpha
    · -- both branches are flagged
      have hflags : ∀ i, ((b.markReset reset bit).shouldReset.set bit true).get i = true := by
        intro i
        by_cases hi : i = bit
        · simp [hi]
        obtain rfl := Bool.eq_not.mpr hi
        simp
      rw [if_pos hlt, if_pos hlt]
      cases reset <;> simp [flush, resetConfidence, resetConfidence_flush, hflags]
    rw [if_neg hlt, if_neg hlt]
    cases hnil : (children bit).isNil with
    | true =>
      simp only [isNil_flush, hnil, if_true, flush, Bool.false_or, markReset_snowball,
        markReset_bit, markReset_preferences, Bool.false_eq_true, if_false]
      congr 3
      funext i
      by_cases hi : i = bit
      · subst hi
        simp [flush_of_isNil hnil]
      obtain rfl := Bool.eq_not.mpr hi
      simp [resetConfidence_flush]
    | false =>
      -- the voted branch is polled with its pending reset, the other one is flagged
      simp only [isNil_flush, decidedPrefix_flush, hnil, Bool.false_eq_true, if_false,
        markReset_snowball, markReset_bit,
        markReset_preferences, markReset_shouldReset_self, ← ih]
      generalize (if reset = true then b.snowball.recordUnsuccessfulPoll else b.snowball) = sb
      generalize (recordPoll params (children bit) _ _).1 = newChild
      by_cases hfin : (sb.recordSuccessfulPoll bit).finalized = true
      · simp [hfin]
      simp only [hfin, Bool.false_eq_true, if_false, flush, Bool.false_or, preference_flush]
      congr 2
      funext i
      by_cases hi : i = bit
      · subst hi
        simp
      obtain rfl := Bool.eq_not.mpr hi
      simp [resetConfidence_flush]

/-! ## Additions -/

/-- A fresh branch has nothing to reset. -/
@[simp] theorem flush_newChild (params : Parameters) (newChoice : ID) (index : Nat) (r : Bool) :
    (newChild params newChoice index).flush r = newChild params newChoice index := by
  cases r <;> rfl

/-- Splitting commutes with flushing. The split moves the node and its confidence below
    the node's own flag, which is harmless as a flagged node has no confidence. -/
theorem split_flush (params : Parameters) (u : UnaryNode) (child : Node) (newChoice : ID)
    (index : Nat) (r : Bool) (hflag : u.shouldReset = true → u.snowball.snowflake.confidence = 0) :
    (u.split child params newChoice index).flush r = UnaryNode.split
        { u with
          snowball := if r then u.snowball.recordUnsuccessfulPoll else u.snowball
          shouldReset := false }
        (child.flush (r || u.shouldReset)) params newChoice index := by
  have hsb : (if (r || u.shouldReset) = true then u.snowball.recordUnsuccessfulPoll
      else u.snowball) = if r = true then u.snowball.recordUnsuccessfulPoll else u.snowball := by
    cases hsr : u.shouldReset with
    | false => simp
    | true =>
      rw [UnarySnowball.recordUnsuccessfulPoll_of_confidence (hflag hsr)]
      simp
  have hext : ∀ r' : Bool, (if r' = true then
        (u.snowball.extend params.betaRogue (u.preference.bit index)).recordUnsuccessfulPoll
      else u.snowball.extend params.betaRogue (u.preference.bit index)) =
      (if r' = true then u.snowball.recordUnsuccessfulPoll else u.snowball).extend
        params.betaRogue (u.preference.bit index) := by
    intro r'
    cases r' <;> rfl
  have hchild : (if child.isNil = true then nil else newChild params newChoice index).flush
      (r || u.shouldReset) = if child.isNil = true then nil else newChild params newChoice index := by
    split
    · rfl
    · exact flush_newChild ..
  unfold UnaryNode.split
  dsimp only [UnaryNode.toBinary, UnarySnowball.clone]
  have hbranches : ∀ n n' : Node, (fun i => (branches (u.preference.bit index) n n' i).flush
      (r || u.shouldReset)) = branches (u.preference.bit index) (n.flush (r || u.shouldReset))
        (n'.flush (r || u.shouldReset)) := by
    intro n n'
    funext i
    unfold branches
    split <;> rfl
  rw [isNil_flush]
  split
  · -- only one bit: the child keeps its pending reset
    simp only [flush, hext, Pair.get_both, hbranches, hchild]
  split
  · -- first bit
    simp only [flush, hext, Pair.get_both, hbranches, hsb, Bool.or_assoc, Bool.or_self,
      flush_newChild]
  split
  · -- last bit
    simp only [flush, hext, hsb, Pair.get_both, hbranches, hchild, Bool.or_assoc, Bool.or_self]
  -- interior bit
  simp only [flush, hext, Pair.get_both, Bool.or_false, hbranches, hsb, Bool.or_assoc,
    Bool.or_self, flush_newChild]

/-- Adding a choice commutes with flushing. -/
theorem add_flush (params : Parameters) (n : Node) (id : ID) (r : Bool) (hn : n.FlagsReset) :
    (n.add params id).flush r = (n.flush r).add params id := by
  induction n generalizing r with
  | nil => rfl
  | unary u child ih =>
    obtain ⟨hflag, hchild⟩ := hn
    simp only [add, flush]
    have hfin : (if r = true then u.snowball.recordUnsuccessfulPoll else u.snowball).finalized =
        u.snowball.finalized := by
      cases r <;> rfl
    rw [hfin]
    by_cases hf : u.snowball.finalized = true
    · simp only [hf, if_true, flush]
    rw [if_neg hf, if_neg hf]
    cases firstDifferenceSubset u.decidedPrefix u.commonPrefix u.preference id with
    | none => simp only [flush, ih _ hchild]
    | some index => exact split_flush params u child id index r hflag
  | binary b children ih =>
    simp only [add, flush, isNil_flush, decidedPrefix_flush]
    split
    · simp only [flush]
      congr 1
      funext i
      by_cases hi : i = id.bit b.bit
      · subst hi
        simp only [update_self]
        exact ih _ _ (hn _)
      · rw [update_of_ne hi, update_of_ne hi]
    · rfl

end Node

/-! ## The flags of a reachable tree -/

namespace Node

private theorem flagsReset_split {u : UnaryNode} {child : Node}
    {newChoice : ID} {index : Nat}
    (hflag : u.shouldReset = true → u.snowball.snowflake.confidence = 0) (hchild : child.FlagsReset) :
    (u.split child params newChoice index).FlagsReset := by
  have hnew : (newChild params newChoice index).FlagsReset := ⟨(fun h => by cases h), trivial⟩
  have hnil : (if child.isNil = true then nil else newChild params newChoice index).FlagsReset := by
    split
    · trivial
    · exact hnew
  unfold UnaryNode.split
  dsimp only
  split
  · exact forall_branches.mpr ⟨hchild, hnil⟩
  split
  · exact forall_branches.mpr ⟨⟨hflag, hchild⟩, hnew⟩
  split
  · exact ⟨hflag, forall_branches.mpr ⟨hchild, hnil⟩⟩
  · exact ⟨(fun h => by cases h), forall_branches.mpr ⟨⟨hflag, hchild⟩, hnew⟩⟩

theorem flagsReset_add {n : Node} {id : ID} (hn : n.FlagsReset) : (n.add params id).FlagsReset := by
  induction n with
  | nil => trivial
  | unary u child ih =>
    obtain ⟨hflag, hchild⟩ := hn
    simp only [add]
    split
    · exact ⟨hflag, hchild⟩
    split
    · exact ⟨hflag, ih hchild⟩
    · exact flagsReset_split hflag hchild
  | binary b children ih =>
    simp only [add]
    split
    · intro i
      by_cases hi : i = id.bit b.bit
      · subst hi
        rw [update_self]
        exact ih _ (hn _)
      rw [update_of_ne hi]
      exact hn i
    · exact hn

theorem flagsReset_recordPoll {n : Node} {votes : Bag} {reset : Bool}
    (hn : n.FlagsReset) : (n.recordPoll params votes reset).1.FlagsReset := by
  induction n generalizing votes reset with
  | nil => trivial
  | unary u child ih =>
    obtain ⟨-, hchild⟩ := hn
    simp only [recordPoll]
    split
    · exact ⟨fun _ => rfl, hchild⟩
    split
    · exact ⟨(fun h => by cases h), hchild⟩
    split
    · exact ih hchild
    · exact ⟨(fun h => by cases h), ih hchild⟩
  | binary b children ih =>
    simp only [recordPoll]
    split
    · exact hn
    split
    · exact hn
    split
    · exact ih _ (hn _)
    intro i
    by_cases hi : i = decide (params.alpha ≤ (((votes.split b.bit).get true).len : Int))
    · subst hi
      rw [update_self]
      exact ih _ (hn _)
    rw [update_of_ne hi]
    exact hn i

end Node

/-! ## Runs -/

namespace Tree

/-- The eager tree a lazy tree stands for. -/
def eager (t : Tree) : EagerTree := { node := t.node.flush t.shouldReset, params := t.params }

@[simp] theorem eager_preference (t : Tree) : t.eager.preference = t.preference :=
  Node.preference_flush ..

@[simp] theorem eager_decidedPrefix (t : Tree) : t.eager.decidedPrefix = t.decidedPrefix :=
  Node.decidedPrefix_flush ..

@[simp] theorem eager_finalized (t : Tree) : t.eager.finalized = t.finalized :=
  Node.finalized_flush ..

theorem eager_add {t : Tree} (ht : t.node.FlagsReset) (choice : ID) :
    (t.add choice).eager = t.eager.add choice := by
  simp only [add, EagerTree.add, eager_preference]
  simp only [eager, Node.decidedPrefix_flush]
  split
  · simp only [Node.add_flush _ _ _ _ ht]
  · rfl

theorem eager_recordPoll (t : Tree) (votes : Bag) :
    (t.recordPoll votes).1.eager = (t.eager.recordPoll votes).1 ∧
      (t.recordPoll votes).2 = (t.eager.recordPoll votes).2 := by
  have h := Node.recordPoll_flush t.params t.node
    (votes.filter 0 t.node.decidedPrefix t.preference) t.shouldReset
  simp only [recordPoll, EagerTree.recordPoll, eager_preference]
  simp only [eager, Node.decidedPrefix_flush, ← h, and_self]

theorem eager_recordUnsuccessfulPoll (t : Tree) :
    t.recordUnsuccessfulPoll.eager = t.eager.recordUnsuccessfulPoll := by
  simp only [eager, recordUnsuccessfulPoll, EagerTree.recordUnsuccessfulPoll,
    Node.resetConfidence_flush]

/-- One lazy step simulates one eager step and returns the same boolean. -/
theorem eager_step {t : Tree} (ht : t.node.FlagsReset) (op : Op) :
    (t.step op).1.eager = (t.eager.step op).1 ∧ (t.step op).2 = (t.eager.step op).2 := by
  cases op with
  | add choice => exact ⟨eager_add ht choice, rfl⟩
  | recordPoll votes =>
    obtain ⟨h1, h2⟩ := eager_recordPoll t votes
    exact ⟨h1, congrArg some h2⟩
  | recordUnsuccessfulPoll => exact ⟨eager_recordUnsuccessfulPoll t, rfl⟩

theorem flagsReset_step {t : Tree} (ht : t.node.FlagsReset) (op : Op) :
    (t.step op).1.node.FlagsReset := by
  cases op with
  | add choice =>
    simp only [step, add]
    split
    · exact Node.flagsReset_add ht
    · exact ht
  | recordPoll votes => exact Node.flagsReset_recordPoll ht
  | recordUnsuccessfulPoll => exact ht

theorem flagsReset_init (params : Parameters) (choice : ID) :
    (init params choice).node.FlagsReset := ⟨(fun h => by cases h), trivial⟩

/-- A run of the lazy tree simulates the same run of the eager tree. -/
theorem eager_run {t : Tree} (ht : t.node.FlagsReset) (ops : List Op) :
    (t.run ops).eager = t.eager.run ops ∧ (t.run ops).node.FlagsReset := by
  induction ops generalizing t with
  | nil => exact ⟨rfl, ht⟩
  | cons op ops ih =>
    have hstep := ih (flagsReset_step ht op)
    rw [(eager_step ht op).1] at hstep
    exact hstep

theorem eager_run_init (params : Parameters) (choice : ID) (ops : List Op) :
    ((init params choice).run ops).eager = (EagerTree.init params choice).run ops :=
  (eager_run (flagsReset_init params choice) ops).1

/-- The booleans the polls of a run return. -/
def results (t : Tree) : List Op → List (Option Bool)
  | [] => []
  | op :: ops => (t.step op).2 :: (t.step op).1.results ops

end Tree

/-- The booleans the polls of a run return. -/
def EagerTree.results (t : EagerTree) : List Tree.Op → List (Option Bool)
  | [] => []
  | op :: ops => (t.step op).2 :: (t.step op).1.results ops

/-- After every run from `init`, the lazy tree and the eager tree have the same
    preference, finality and decided prefix, and every poll of the run returned the same
    boolean in both. -/
theorem Tree.run_eq_eager_run (params : Parameters) (choice : ID) (ops : List Tree.Op) :
    let t := (Tree.init params choice).run ops
    let e := (EagerTree.init params choice).run ops
    t.preference = e.preference ∧ t.finalized = e.finalized ∧ t.decidedPrefix = e.decidedPrefix ∧
      (Tree.init params choice).results ops = (EagerTree.init params choice).results ops := by
  have hrun := eager_run_init params choice ops
  have hresults : ∀ (ops : List Tree.Op) (t : Tree), t.node.FlagsReset →
      t.results ops = t.eager.results ops := by
    intro ops
    induction ops with
    | nil => intro t _; rfl
    | cons op ops ih =>
      intro t ht
      simp only [Tree.results, EagerTree.results]
      rw [(Tree.eager_step ht op).2, ih _ (Tree.flagsReset_step ht op), (Tree.eager_step ht op).1]
  refine ⟨?_, ?_, ?_, hresults ops _ (Tree.flagsReset_init params choice)⟩
  · rw [← hrun, Tree.eager_preference]
  · rw [← hrun, Tree.eager_finalized]
  · rw [← hrun, Tree.eager_decidedPrefix]

end SavannahNode
