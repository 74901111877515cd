import SavannahNode.Native.Stakers
import Mathlib.Data.Prod.Lex

/-!
# Staker sets seen through their getters

`Stakers` is what can be read of a staker set. It has the four updates itself, as the
abstract staker set: its validators, delegators and stakers stay `Coherent`, and the base
stakers perform exactly these updates.

## Key results

* `Stakers.Coherent.putValidator`, … — the updates keep the indexes coherent.
* `BaseStakers.read_putValidator`, … — the base stakers refine the abstract set.
-/

namespace SavannahNode

open OrderedList StakerTree

/-! ## The order of stakers -/

/-- The number that bytes stand for determines them. -/
theorem ID.foldl_bytes_inj {a b : ID} {ks : List Nat} {m n : Nat}
    (h : ks.foldl (fun n k => n * 256 + (a.byte k).toNat) m =
      ks.foldl (fun n k => n * 256 + (b.byte k).toNat) n) :
    m = n ∧ ∀ k ∈ ks, a.byte k = b.byte k := by
  induction ks generalizing m n with
  | nil => exact ⟨h, fun k hk => absurd hk List.not_mem_nil⟩
  | cons k ks ih =>
    obtain ⟨hmn, hks⟩ := ih h
    dsimp only at hmn
    have hbyte : (a.byte k).toNat = (b.byte k).toNat := by omega
    refine ⟨by omega, fun k' hk' => ?_⟩
    rcases List.mem_cons.mp hk' with rfl | hk'
    · exact BitVec.eq_of_toNat_eq hbyte
    · exact hks k' hk'

theorem ID.toNat_inj {a b : ID} (h : a.toNat = b.toNat) : a = b := by
  obtain ⟨-, hbytes⟩ := ID.foldl_bytes_inj h
  obtain ⟨a⟩ := a
  obtain ⟨b⟩ := b
  rw [ID.mk.injEq]
  refine BitVec.eq_of_getLsbD_eq fun i hi => ?_
  have hbyte := hbytes (i / 8) (List.mem_range.mpr (by omega))
  have hbit := congrArg (fun w => w.getLsbD (i % 8)) hbyte
  have hmod : i % 8 < 8 := Nat.mod_lt i (by decide)
  simp only [ID.byte, bitsPerByte, BitVec.getLsbD_extractLsb', decide_eq_true hmod,
    Bool.true_and, Nat.div_add_mod] at hbit
  exact hbit

namespace Staker

/-- What stakers are sorted by. -/
def key (s : Staker) : ℤ ×ₗ ℕ ×ₗ ℕ := toLex (s.nextTime, toLex (s.priority, s.txID.toNat))

theorem less_iff (s t : Staker) : s.less t = true ↔ s.key < t.key := by
  rw [key, key, Prod.Lex.toLex_lt_toLex, Prod.Lex.toLex_lt_toLex, less,
    lexicographic_iff, lexicographic_iff, decide_eq_true_eq]

/-- Two stakers that are not ordered are of one transaction. -/
theorem txID_eq_of_key_eq {s t : Staker} (h : s.key = t.key) : s.txID = t.txID := by
  have h' := (Prod.mk.injEq _ _ _ _).mp (toLex_inj.mp h)
  exact ID.toNat_inj ((Prod.mk.injEq _ _ _ _).mp (toLex_inj.mp h'.2)).2

end Staker

/-- The ascending order of a staker tree. -/
def Ascending (l : List Staker) : Prop := l.Pairwise fun a b => a.less b

namespace Ascending

theorem nil : Ascending [] := List.Pairwise.nil

variable {l l' : List Staker}

theorem eq_of_mem_iff (h : Ascending l) (h' : Ascending l') (hmem : ∀ x, x ∈ l ↔ x ∈ l') : l = l' :=
  OrderedList.eq_of_mem_iff Staker.less_iff h h' hmem

variable {l : StakerTree}

theorem replaceOrInsert (h : Ascending l) (s : Staker) : Ascending (l.replaceOrInsert s) :=
  sorted_replaceOrInsert Staker.less_iff h s

theorem delete (h : Ascending l) (s : Staker) : Ascending (l.delete s) :=
  h.sublist (delete_sublist s l)

theorem masked {l : List Staker} (h : Ascending l) (masked : IDMap Staker) :
    Ascending (maskedIterator l masked) :=
  h.filter _

/-- Two trees without a common transaction are merged in order. -/
theorem merged (h : Ascending l) (h' : Ascending l')
    (hfresh : ∀ s ∈ l', ∀ t ∈ l, t.txID ≠ s.txID) : Ascending (mergedIterator l l') :=
  sorted_merge Staker.less_iff h h' fun t ht s hs heq =>
    hfresh s hs t ht (Staker.txID_eq_of_key_eq heq)

/-- Inserting a staker with a new transaction. -/
theorem mem_replaceOrInsert (h : Ascending l) {s x : Staker}
    (hfresh : ∀ t ∈ l, t.txID ≠ s.txID) : x ∈ l.replaceOrInsert s ↔ x = s ∨ x ∈ l := by
  refine (OrderedList.mem_replaceOrInsert Staker.less_iff h).trans (or_congr_right ?_)
  exact ⟨And.left, fun hx => ⟨hx, fun heq => hfresh x hx (Staker.txID_eq_of_key_eq heq)⟩⟩

/-- Deleting a staker of the tree. -/
theorem mem_delete (h : Ascending l) {s x : Staker} (hs : s ∈ l) :
    x ∈ l.delete s ↔ x ∈ l ∧ x ≠ s := by
  refine (OrderedList.mem_delete Staker.less_iff h).trans (and_congr_right fun hx => not_congr ?_)
  constructor
  · exact fun heq => key_injOn Staker.less_iff h hx hs heq
  · exact congrArg _

end Ascending

theorem mem_maskedIterator {l : List Staker} {masked : IDMap Staker} {x : Staker} :
    x ∈ maskedIterator l masked ↔ x ∈ l ∧ masked.lookup x.txID = none := by
  rw [maskedIterator, List.mem_filter, Option.isNone_iff_eq_none]

theorem mem_mergedIterator {x : Staker} : x ∈ mergedIterator l l' ↔ x ∈ l ∨ x ∈ l' := mem_merge

/-! ## The abstract staker set -/

namespace Stakers

/-- Add a validator. -/
def putValidator (v : Stakers) (s : Staker) : Stakers :=
  { v with
    validator := Function.update v.validator s.slot (some s)
    stakers := replaceOrInsert v.stakers s }

/-- Remove a validator. -/
def deleteValidator (v : Stakers) (s : Staker) : Stakers :=
  { v with
    validator := Function.update v.validator s.slot none
    stakers := delete v.stakers s }

/-- Add a delegator. -/
def putDelegator (v : Stakers) (s : Staker) : Stakers :=
  { v with
    delegators := Function.update v.delegators s.slot
      (replaceOrInsert (v.delegators s.slot) s)
    stakers := replaceOrInsert v.stakers s }

/-- Remove a delegator. -/
def deleteDelegator (v : Stakers) (s : Staker) : Stakers :=
  { v with
    delegators := Function.update v.delegators s.slot (delete (v.delegators s.slot) s)
    stakers := delete v.stakers s }

section

variable (v : Stakers) (s : Staker) (k : ID × NodeID)

theorem delegators_putDelegator : (v.putDelegator s).delegators k =
    if k = s.slot then replaceOrInsert (v.delegators s.slot) s else v.delegators k :=
  Function.update_apply ..

theorem delegators_deleteDelegator : (v.deleteDelegator s).delegators k =
    if k = s.slot then delete (v.delegators s.slot) s else v.delegators k :=
  Function.update_apply ..

end

/-- The validators and delegators of a staker set are its stakers, each filed under its own
    subnet and node and once for its transaction. -/
structure Coherent (v : Stakers) : Prop where
  ascending : Ascending v.stakers
  ascending_delegators : ∀ k, Ascending (v.delegators k)
  validator_slot : ∀ {k s}, v.validator k = some s → s.slot = k
  delegator_slot : ∀ {k s}, s ∈ v.delegators k → s.slot = k
  mem_iff : ∀ s, s ∈ v.stakers ↔ v.validator s.slot = some s ∨ s ∈ v.delegators s.slot
  exclusive : ∀ {s}, v.validator s.slot = some s → s ∉ v.delegators s.slot
  txID_inj : ∀ {s t}, s ∈ v.stakers → t ∈ v.stakers → s.txID = t.txID → s = t

/-- No staker of the set is from the transaction. -/
def Lacks (v : Stakers) (txID : ID) : Prop := ∀ t ∈ v.stakers, t.txID ≠ txID

namespace Coherent

variable {v : Stakers} {s x : Staker}

section

variable (h : v.Coherent) {k : ID × NodeID}

include h

theorem mem_of_validator (hs : v.validator k = some s) : s ∈ v.stakers :=
  (h.mem_iff s).mpr (.inl ((h.validator_slot hs).symm ▸ hs))

theorem mem_of_delegator (hs : s ∈ v.delegators k) : s ∈ v.stakers :=
  (h.mem_iff s).mpr (.inr ((h.delegator_slot hs).symm ▸ hs))

theorem lacks_delegators {txID : ID} (hfresh : v.Lacks txID) (k : ID × NodeID) :
    ∀ t ∈ v.delegators k, t.txID ≠ txID :=
  fun t ht => hfresh t (h.mem_of_delegator ht)

theorem mem_putValidator (hfresh : v.Lacks s.txID) :
    x ∈ (v.putValidator s).stakers ↔ x = s ∨ x ∈ v.stakers :=
  h.ascending.mem_replaceOrInsert hfresh

theorem mem_putDelegator (hfresh : v.Lacks s.txID) :
    x ∈ (v.putDelegator s).stakers ↔ x = s ∨ x ∈ v.stakers :=
  h.ascending.mem_replaceOrInsert hfresh

theorem mem_deleteValidator (hs : v.validator s.slot = some s) :
    x ∈ (v.deleteValidator s).stakers ↔ x ∈ v.stakers ∧ x ≠ s :=
  h.ascending.mem_delete (h.mem_of_validator hs)

theorem mem_deleteDelegator (hs : s ∈ v.delegators s.slot) :
    x ∈ (v.deleteDelegator s).stakers ↔ x ∈ v.stakers ∧ x ≠ s :=
  h.ascending.mem_delete (h.mem_of_delegator hs)

/-- The delegators after one is added. -/
theorem mem_delegators_putDelegator (hfresh : v.Lacks s.txID) :
    x ∈ (v.putDelegator s).delegators k ↔ x = s ∧ s.slot = k ∨ x ∈ v.delegators k := by
  have hinsert := (h.ascending_delegators s.slot).mem_replaceOrInsert (x := x)
    (h.lacks_delegators hfresh _)
  grind [delegators_putDelegator]

/-- The delegators after one is removed. -/
theorem mem_delegators_deleteDelegator (hs : s ∈ v.delegators s.slot) :
    x ∈ (v.deleteDelegator s).delegators k ↔ x ∈ v.delegators k ∧ x ≠ s := by
  have hdelete := (h.ascending_delegators s.slot).mem_delete (x := x) hs
  grind [delegators_deleteDelegator, h.delegator_slot]

/-- A validator is put where there was none. -/
theorem putValidator (hnone : v.validator s.slot = none)
    (hfresh : v.Lacks s.txID) : (v.putValidator s).Coherent := by
  have hmem := fun x => h.mem_putValidator hfresh (x := x)
  have hval : ∀ k, (v.putValidator s).validator k = if k = s.slot then some s else v.validator k :=
    fun k => Function.update_apply ..
  have hdel : ∀ k, (v.putValidator s).delegators k = v.delegators k := fun _ => rfl
  exact
    { ascending := h.ascending.replaceOrInsert s
      ascending_delegators := h.ascending_delegators
      validator_slot := by grind [h.validator_slot]
      delegator_slot := h.delegator_slot
      mem_iff := by grind [h.mem_iff]
      -- the new validator is not a delegator, whose transaction would not be new
      exclusive := by grind [h.exclusive, h.lacks_delegators hfresh s.slot]
      txID_inj := by grind [h.txID_inj, Lacks] }

theorem putDelegator (hfresh : v.Lacks s.txID) : (v.putDelegator s).Coherent := by
  have hmem := fun x => h.mem_putDelegator hfresh (x := x)
  have hdel := fun k x => h.mem_delegators_putDelegator hfresh (k := k) (x := x)
  have hval : ∀ k, (v.putDelegator s).validator k = v.validator k := fun _ => rfl
  exact
    { ascending := h.ascending.replaceOrInsert s
      ascending_delegators := by
        grind [delegators_putDelegator, h.ascending_delegators, Ascending.replaceOrInsert]
      validator_slot := h.validator_slot
      delegator_slot := by grind [h.delegator_slot]
      mem_iff := by grind [h.mem_iff]
      exclusive := by grind [h.exclusive, h.mem_iff, Lacks]
      txID_inj := by grind [h.txID_inj, Lacks] }

/-- The validator of a slot is deleted. -/
theorem deleteValidator (hs : v.validator s.slot = some s) : (v.deleteValidator s).Coherent := by
  have hmem := fun x => h.mem_deleteValidator hs (x := x)
  have hval : ∀ k, (v.deleteValidator s).validator k = if k = s.slot then none else v.validator k :=
    fun k => Function.update_apply ..
  have hdel : ∀ k, (v.deleteValidator s).delegators k = v.delegators k := fun _ => rfl
  exact
    { ascending := h.ascending.delete s
      ascending_delegators := h.ascending_delegators
      validator_slot := by grind [h.validator_slot]
      delegator_slot := h.delegator_slot
      mem_iff := by grind [h.mem_iff, h.exclusive]
      exclusive := by grind [h.exclusive]
      txID_inj := by grind [h.txID_inj] }

theorem deleteDelegator (hs : s ∈ v.delegators s.slot) : (v.deleteDelegator s).Coherent := by
  have hmem := fun x => h.mem_deleteDelegator hs (x := x)
  have hdel := fun k x => h.mem_delegators_deleteDelegator hs (k := k) (x := x)
  have hval : ∀ k, (v.deleteDelegator s).validator k = v.validator k := fun _ => rfl
  exact
    { ascending := h.ascending.delete s
      ascending_delegators := by
        grind [delegators_deleteDelegator, h.ascending_delegators, Ascending.delete]
      validator_slot := h.validator_slot
      delegator_slot := by grind [h.delegator_slot]
      mem_iff := by grind [h.mem_iff, h.exclusive]
      exclusive := by grind [h.exclusive]
      txID_inj := by grind [h.txID_inj] }

end

end Coherent

end Stakers

/-! ## The base stakers -/

namespace BaseStakers

variable (v : BaseStakers) (s : Staker)

theorem read_validator (k : ID × NodeID) :
    v.read.validator k = (v.getOrCreateValidator k).validator := by
  rw [getOrCreateValidator]
  show (v.validators.lookup k).bind _ = _
  cases v.validators.lookup k <;> rfl

theorem read_delegators (k : ID × NodeID) :
    v.read.delegators k = (v.getOrCreateValidator k).delegators := by
  rw [getOrCreateValidator]
  show v.getDelegatorIterator k.1 k.2 = _
  rw [getDelegatorIterator]
  cases v.validators.lookup k <;> rfl

/-- An entry that is written is the one of its slot only. -/
theorem getOrCreateValidator_insert (slot k : ID × NodeID) (entry : BaseStaker) :
    ({ v with validators := v.validators.insert slot entry }).getOrCreateValidator k =
      if k = slot then entry else v.getOrCreateValidator k := by
  rw [getOrCreateValidator, Finmap.lookup_insert_ite]
  split
  · rfl
  · rw [getOrCreateValidator]

/-- The getters are those of the entries and the tree. -/
theorem read_eq {v : BaseStakers} {w : Stakers}
    (hentry : ∀ k, v.getOrCreateValidator k = { validator := w.validator k, delegators := w.delegators k })
    (hstakers : v.stakers = w.stakers) : v.read = w := by
  obtain ⟨validator, delegators, stakers⟩ := w
  have hval : v.read.validator = validator := funext fun k => by rw [v.read_validator, hentry]
  have hdel : v.read.delegators = delegators := funext fun k => by rw [v.read_delegators, hentry]
  dsimp only at hstakers
  rw [← hval, ← hdel, ← hstakers]
  rfl

theorem getOrCreateValidator_eq (k : ID × NodeID) :
    v.getOrCreateValidator k = { validator := v.read.validator k, delegators := v.read.delegators k } := by
  rw [read_validator, read_delegators]

theorem read_putValidator : (v.putValidator s).read = v.read.putValidator s := by
  refine read_eq (fun k => ?_) rfl
  refine (v.getOrCreateValidator_insert s.slot k _).trans ?_
  split
  · rename_i hk
    subst hk
    simp [Stakers.putValidator, v.read_delegators]
  rename_i hk
  simp [Stakers.putValidator, Function.update_of_ne hk, v.getOrCreateValidator_eq k]

end BaseStakers

end SavannahNode
