import SavannahNode.ForStd.OrderedList
import SavannahNode.Native.Choices
import SavannahNode.Native.NodeIDs
import SavannahNode.Native.SafeMath

/-!
# Staker sets of the P-chain

`state.Staker`, the staker set of the base state (`baseStakers`) and the changes of a diff to
a staker set (`diffStakers`), from `vms/platformvm/state`: `staker.go`, `priorities.go`,
`stakers.go` and the iterators. A B-tree of stakers is the list of its items in ascending
order, `nil` the empty list; an iterator is the list of what it returns. The maps from
subnet and node to a validator's entry are keyed by the pair, and no entry is the entry with
all fields zero.
-/

namespace SavannahNode

/-- The bytes of an ID read as one number, whose order is that of `bytes.Compare`. -/
def ID.toNat (id : ID) : Nat := (List.range 32).foldl (fun n k => n * 256 + (id.byte k).toNat) 0

/-- `constants.PrimaryNetworkID`. -/
def primaryNetworkID : ID := ID.empty

/-- The group in which a staker leaves a staker set. -/
abbrev Priority := Nat

/-- First subnet delegators are removed from the current validator set, -/
def subnetDelegatorCurrentPriority : Priority := 1
/-- then subnet validators, -/
def subnetValidatorCurrentPriority : Priority := 2
/-- then primary network delegators, -/
def primaryNetworkDelegatorCurrentPriority : Priority := 3
/-- then primary network validators. -/
def primaryNetworkValidatorCurrentPriority : Priority := 4

/-- First primary network delegators are moved from the pending to the current set, -/
def primaryNetworkDelegatorPendingPriority : Priority := 1
/-- then primary network validators, -/
def primaryNetworkValidatorPendingPriority : Priority := 2
/-- then subnet validators, -/
def subnetValidatorPendingPriority : Priority := 3
/-- then subnet delegators. -/
def subnetDelegatorPendingPriority : Priority := 4

/-- `PendingToCurrentPriorities`, a table with the zero value at index zero. -/
def pendingToCurrentPriorities (p : Priority) : Priority :=
  if p = primaryNetworkValidatorPendingPriority then primaryNetworkValidatorCurrentPriority
  else if p = primaryNetworkDelegatorPendingPriority then primaryNetworkDelegatorCurrentPriority
  else if p = subnetValidatorPendingPriority then subnetValidatorCurrentPriority
  else if p = subnetDelegatorPendingPriority then subnetDelegatorCurrentPriority
  else 0

/-- A validator or delegator in the current or pending validator set. -/
structure Staker where
  txID : ID
  nodeID : NodeID
  subnetID : ID
  weight : Nat
  startTime : Time
  endTime : Time
  potentialReward : Nat
  /-- When the staker leaves its set: `startTime` if pending, `endTime` if current. -/
  nextTime : Time
  priority : Priority
deriving DecidableEq

namespace Staker

/-- `Staker.Less`: by the next time, then the priority, then the transaction ID. -/
def less (s than : Staker) : Bool :=
  if s.nextTime < than.nextTime then true
  else if than.nextTime < s.nextTime then false
  else if s.priority < than.priority then true
  else if than.priority < s.priority then false
  else s.txID.toNat < than.txID.toNat

/-- The subnet and node a staker is filed under. -/
def slot (s : Staker) : ID × NodeID := (s.subnetID, s.nodeID)

/-- The staker as it moves from the pending to the current set. -/
def toCurrent (s : Staker) : Staker :=
  { s with nextTime := s.endTime, priority := pendingToCurrentPriorities s.priority }

end Staker

/-! ## Trees and iterators -/

/-- A B-tree of stakers, in ascending order. -/
abbrev StakerTree := List Staker

namespace StakerTree

/-- `BTree.ReplaceOrInsert`. -/
def replaceOrInsert (t : StakerTree) (s : Staker) : StakerTree :=
  OrderedList.replaceOrInsert (fun a b => a.less b) s t

/-- `BTree.Delete`. -/
def delete (t : StakerTree) (s : Staker) : StakerTree :=
  OrderedList.delete (fun a b => a.less b) s t

end StakerTree

/-- `NewMergedIterator` of two iterators: a heap of the iterators that are not exhausted. -/
def mergedIterator (parent added : List Staker) : List Staker :=
  OrderedList.merge (fun a b => a.less b) parent added

/-- `NewMaskedIterator`: skip the stakers whose transaction is masked. -/
def maskedIterator (parent : List Staker) (masked : IDMap Staker) : List Staker :=
  parent.filter fun s => (masked.lookup s.txID).isNone

/-- What the getters of a staker set return (`CurrentStakers`, `PendingStakers`). A missing
    validator is `database.ErrNotFound`. -/
structure Stakers where
  validator : ID × NodeID → Option Staker
  delegators : ID × NodeID → List Staker
  stakers : List Staker

/-! ## The changes to one validator -/

/-- `diffValidator`. `validatorDeleted` implies `validatorModified`. -/
structure DiffValidator where
  validatorModified : Bool
  validatorDeleted : Bool
  validator : Option Staker
  addedDelegators : StakerTree
  deletedDelegators : IDMap Staker

namespace DiffValidator

/-- The zero value. -/
def empty : DiffValidator :=
  { validatorModified := false
    validatorDeleted := false
    validator := none
    addedDelegators := []
    deletedDelegators := ∅ }

variable (d : DiffValidator) (s : Staker)

/-- Record a new validator. -/
def putValidator : DiffValidator :=
  { d with validatorModified := true, validatorDeleted := false, validator := some s }

/-- Record the removal of the validator. -/
def deleteValidator : DiffValidator :=
  { d with validatorModified := true, validatorDeleted := true, validator := some s }

/-- Record a new delegator. -/
def putDelegator : DiffValidator :=
  { d with addedDelegators := d.addedDelegators.replaceOrInsert s }

/-- Record the removal of a delegator. -/
def deleteDelegator : DiffValidator :=
  { d with deletedDelegators := d.deletedDelegators.insert s.txID s }

end DiffValidator

/-- The entry for a subnet and node, created if there is none (`getOrCreateDiff`). -/
def getOrCreateDiff (diffs : Finmap fun _ : ID × NodeID => DiffValidator) (slot : ID × NodeID) :
    DiffValidator :=
  (diffs.lookup slot).getD .empty

/-! ## The stakers of the base state -/

/-- `baseStaker`: the validator of a subnet and node, with its delegators. -/
structure BaseStaker where
  validator : Option Staker
  delegators : StakerTree

/-- The zero value. -/
def BaseStaker.empty : BaseStaker := { validator := none, delegators := [] }

/-- `baseStakers`. -/
structure BaseStakers where
  validators : Finmap fun _ : ID × NodeID => BaseStaker
  stakers : StakerTree
  /-- The changes since the last write to the database. -/
  validatorDiffs : Finmap fun _ : ID × NodeID => DiffValidator

namespace BaseStakers

/-- `newBaseStakers`. -/
def empty : BaseStakers := { validators := ∅, stakers := [], validatorDiffs := ∅ }

variable (v : BaseStakers) (slot : ID × NodeID)

/-- `getOrCreateValidator`. -/
def getOrCreateValidator : BaseStaker := (v.validators.lookup slot).getD .empty

/-- Store an entry, or remove it once it is empty (`pruneValidator`). -/
def pruneValidator (entry : BaseStaker) : BaseStakers :=
  if entry.validator.isSome ∨ entry.delegators.length > 0 then
    { v with validators := v.validators.insert slot entry }
  else { v with validators := v.validators.erase slot }

/-- Change the entry of `validatorDiffs` (`getOrCreateValidatorDiff`). -/
def modifyDiff (f : DiffValidator → DiffValidator) : BaseStakers :=
  { v with validatorDiffs := v.validatorDiffs.insert slot (f (getOrCreateDiff v.validatorDiffs slot)) }

/-- `GetValidator`. -/
def getValidator (subnetID : ID) (nodeID : NodeID) : Option Staker :=
  (v.validators.lookup (subnetID, nodeID)).bind fun entry => entry.validator

/-- `PutValidator`. -/
def putValidator (v : BaseStakers) (s : Staker) : BaseStakers :=
  let entry := { v.getOrCreateValidator s.slot with validator := some s }
  let v := { v with validators := v.validators.insert s.slot entry }
  let v := v.modifyDiff s.slot (·.putValidator s)
  { v with stakers := v.stakers.replaceOrInsert s }

/-- `DeleteValidator`. -/
def deleteValidator (v : BaseStakers) (s : Staker) : BaseStakers :=
  let entry := { v.getOrCreateValidator s.slot with validator := none }
  let v := v.pruneValidator s.slot entry
  let v := v.modifyDiff s.slot (·.deleteValidator s)
  { v with stakers := v.stakers.delete s }

/-- `GetDelegatorIterator`. -/
def getDelegatorIterator (subnetID : ID) (nodeID : NodeID) : List Staker :=
  match v.validators.lookup (subnetID, nodeID) with
  | none => []
  | some entry => entry.delegators

/-- `PutDelegator`. -/
def putDelegator (v : BaseStakers) (s : Staker) : BaseStakers :=
  let entry := v.getOrCreateValidator s.slot
  let entry := { entry with delegators := entry.delegators.replaceOrInsert s }
  let v := { v with validators := v.validators.insert s.slot entry }
  let v := v.modifyDiff s.slot (·.putDelegator s)
  { v with stakers := v.stakers.replaceOrInsert s }

/-- `DeleteDelegator`. -/
def deleteDelegator (v : BaseStakers) (s : Staker) : BaseStakers :=
  let entry := v.getOrCreateValidator s.slot
  let entry := { entry with delegators := entry.delegators.delete s }
  let v := v.pruneValidator s.slot entry
  let v := v.modifyDiff s.slot (·.deleteDelegator s)
  { v with stakers := v.stakers.delete s }

/-- `GetStakerIterator`. -/
def getStakerIterator : List Staker := v.stakers

/-- The getters. -/
def read : Stakers :=
  { validator := fun slot => v.getValidator slot.1 slot.2
    delegators := fun slot => v.getDelegatorIterator slot.1 slot.2
    stakers := v.getStakerIterator }

end BaseStakers

namespace DiffValidator

/-- The change of `diff.Apply` to the validator itself. -/
def applyValidator (d : DiffValidator) (base : BaseStakers) : BaseStakers :=
  match d.validator with
  | none => base
  | some s =>
    if d.validatorModified then
      if d.validatorDeleted then base.deleteValidator s else base.putValidator s
    else base

/-- One entry of `diff.Apply`: the validator, the added delegators, the removed ones. -/
def apply (order : RangeOrder ID) (d : DiffValidator) (base : BaseStakers) : BaseStakers :=
  let base := d.applyValidator base
  let base := d.addedDelegators.foldl (fun base s => base.putDelegator s) base
  ((order.list d.deletedDelegators.keys).filterMap d.deletedDelegators.lookup).foldl
    (fun base s => base.deleteDelegator s) base

end DiffValidator

/-! ## The stakers of a diff -/

/-- `diffStakers`: the changes of a diff to a staker set. -/
structure DiffStakers where
  validatorDiffs : Finmap fun _ : ID × NodeID => DiffValidator
  addedStakers : StakerTree
  deletedStakers : IDMap Staker

namespace DiffStakers

/-- The zero value. -/
def empty : DiffStakers := { validatorDiffs := ∅, addedStakers := [], deletedStakers := ∅ }

section

variable (d : DiffStakers) (parentIterator : List Staker) (subnetID : ID) (nodeID : NodeID)

/-- Change the entry of `validatorDiffs`. -/
def modifyDiff (slot : ID × NodeID) (f : DiffValidator → DiffValidator) : DiffStakers :=
  { d with validatorDiffs := d.validatorDiffs.insert slot (f (getOrCreateDiff d.validatorDiffs slot)) }

/-- `GetValidator`: `none` if the diff did not modify the validator, `some none` if it
    removed it. -/
def getValidator : Option (Option Staker) :=
  match d.validatorDiffs.lookup (subnetID, nodeID) with
  | none => none
  | some validatorDiff =>
    if !validatorDiff.validatorModified then none
    else if validatorDiff.validatorDeleted then some none
    else some validatorDiff.validator

/-- `PutValidator`. -/
def putValidator (d : DiffStakers) (s : Staker) : DiffStakers :=
  let d := d.modifyDiff s.slot (·.putValidator s)
  { d with addedStakers := d.addedStakers.replaceOrInsert s }

/-- `DeleteValidator`. -/
def deleteValidator (d : DiffStakers) (s : Staker) : DiffStakers :=
  let d := d.modifyDiff s.slot (·.deleteValidator s)
  { d with deletedStakers := d.deletedStakers.insert s.txID s }

/-- `GetDelegatorIterator`. -/
def getDelegatorIterator : List Staker :=
  let validatorDiff := getOrCreateDiff d.validatorDiffs (subnetID, nodeID)
  maskedIterator (mergedIterator parentIterator validatorDiff.addedDelegators)
    validatorDiff.deletedDelegators

/-- `PutDelegator`. -/
def putDelegator (d : DiffStakers) (s : Staker) : DiffStakers :=
  let d := d.modifyDiff s.slot (·.putDelegator s)
  { d with addedStakers := d.addedStakers.replaceOrInsert s }

/-- `DeleteDelegator`. -/
def deleteDelegator (d : DiffStakers) (s : Staker) : DiffStakers :=
  let d := d.modifyDiff s.slot (·.deleteDelegator s)
  { d with deletedStakers := d.deletedStakers.insert s.txID s }

/-- `GetStakerIterator`. -/
def getStakerIterator : List Staker :=
  maskedIterator (mergedIterator parentIterator d.addedStakers) d.deletedStakers

/-- The getters of `diff` over those of its parent state. -/
def read (parent : Stakers) : Stakers :=
  { validator := fun slot => (d.getValidator slot.1 slot.2).getD (parent.validator slot)
    delegators := fun slot => d.getDelegatorIterator (parent.delegators slot) slot.1 slot.2
    stakers := d.getStakerIterator parent.stakers }

end

/-- What `diff.Apply` does to the base stakers: one entry after the other. -/
def apply (order : RangeOrder (ID × NodeID)) (delegatorOrder : RangeOrder ID) (d : DiffStakers)
    (base : BaseStakers) : BaseStakers :=
  (order.list d.validatorDiffs.keys).foldl
    (fun base slot => (getOrCreateDiff d.validatorDiffs slot).apply delegatorOrder base) base

end DiffStakers

/-! ## The future changes of a staker set -/

/-- `mutableStakerIterator`: the value of `iterator` is its first element, the heap is kept in
    ascending order. -/
structure MutableStakerIterator where
  iterator : List Staker
  heap : List Staker

namespace MutableStakerIterator

/-- `heap.Push` on a heap in ascending order. -/
def push (s : Staker) : List Staker → List Staker
  | [] => [s]
  | x :: xs => if x.less s then x :: push s xs else s :: x :: xs

/-- `Add`. -/
def add (it : MutableStakerIterator) (s : Staker) : MutableStakerIterator :=
  { it with heap := push s it.heap }

/-- `Next`: whether it returned `true` is whether the heap has a first element afterwards. -/
def next (it : MutableStakerIterator) : MutableStakerIterator :=
  let heap := it.heap.tail
  match it.iterator, heap with
  | [], _ => { it with heap }
  | s :: rest, [] => { iterator := rest, heap := [s] }
  | s :: rest, x :: _ =>
    if s.less x then { iterator := rest, heap := push s heap } else { it with heap }

end MutableStakerIterator

/-- `stakerDiffIterator`: the removals to come, and the pending stakers to come. -/
structure StakerDiffIterator where
  currentIterator : MutableStakerIterator
  pendingIterator : List Staker

namespace StakerDiffIterator

/-- `NewStakerDiffIterator`. -/
def new (currentIterator pendingIterator : List Staker) : StakerDiffIterator :=
  { currentIterator := ({ iterator := currentIterator, heap := [] } : MutableStakerIterator).next
    pendingIterator }

/-- `advanceCurrent`: the next staker is removed. -/
def advanceCurrent (it : StakerDiffIterator) : StakerDiffIterator :=
  { it with currentIterator := it.currentIterator.next }

/-- `advancePending`: the next pending staker is added, and will be removed. -/
def advancePending (it : StakerDiffIterator) (s : Staker) (rest : List Staker) :
    StakerDiffIterator :=
  { currentIterator := it.currentIterator.add s.toCurrent, pendingIterator := rest }

/-- `Next` and `Value`: the staker that changes and whether it is added. -/
def next (it : StakerDiffIterator) : Option ((Staker × Bool) × StakerDiffIterator) :=
  match it.currentIterator.heap, it.pendingIterator with
  | [], [] => none
  | [], s :: rest => some ((s, true), it.advancePending s rest)
  | x :: _, [] => some ((x, false), it.advanceCurrent)
  | x :: _, s :: rest =>
    if x.endTime < s.startTime then some ((x, false), it.advanceCurrent)
    else some ((s, true), it.advancePending s rest)

/-- The changes the iterator returns, at most `fuel` of them. -/
def changes : Nat → StakerDiffIterator → List (Staker × Bool)
  | 0, _ => []
  | fuel + 1, it =>
    match it.next with
    | none => []
    | some (change, it) => change :: changes fuel it

end StakerDiffIterator

/-- All changes `NewStakerDiffIterator` returns: each current staker is removed once, each
    pending staker is added and removed. -/
def stakerDiffs (currentIterator pendingIterator : List Staker) : List (Staker × Bool) :=
  StakerDiffIterator.changes (currentIterator.length + 2 * pendingIterator.length)
    (.new currentIterator pendingIterator)

end SavannahNode
