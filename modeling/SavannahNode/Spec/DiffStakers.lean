import SavannahNode.Spec.StakersView

/-!
# Reading a staker set through a diff

A diff that only adds new stakers and only removes stakers of its parent (`Fits`) performs the
updates of the abstract staker set over whatever its parent reads as.

## Key results

* `DiffStakers.Changes.putValidator`, … — a diff over its parent simulates the abstract set.
-/

namespace SavannahNode

namespace DiffStakers

variable {d : DiffStakers} {p v : Stakers} {s x : Staker} {k : ID × NodeID}

/-- The changes filed under a subnet and node. -/
def entry (d : DiffStakers) (k : ID × NodeID) : DiffValidator := getOrCreateDiff d.validatorDiffs k

theorem entry_modifyDiff (d : DiffStakers) (slot k : ID × NodeID)
    (f : DiffValidator → DiffValidator) :
    (d.modifyDiff slot f).entry k = if k = slot then f (d.entry slot) else d.entry k := by
  rw [entry, modifyDiff, getOrCreateDiff, Finmap.lookup_insert_ite]
  split
  · rfl
  · rfl

theorem getValidator_eq (d : DiffStakers) (k : ID × NodeID) : d.getValidator k.1 k.2 =
      if (d.entry k).validatorModified then
        if (d.entry k).validatorDeleted then some none else some (d.entry k).validator
      else none := by
  rw [getValidator, entry, getOrCreateDiff]
  cases d.validatorDiffs.lookup k with
  | none => rfl
  | some e => cases h : e.validatorModified <;> simp [h]

theorem mem_read_stakers : x ∈ (d.read p).stakers ↔
    (x ∈ p.stakers ∨ x ∈ d.addedStakers) ∧ d.deletedStakers.lookup x.txID = none :=
  mem_maskedIterator.trans (and_congr_left' mem_mergedIterator)

theorem mem_read_delegators : x ∈ (d.read p).delegators k ↔
    (x ∈ p.delegators k ∨ x ∈ (d.entry k).addedDelegators) ∧
      (d.entry k).deletedDelegators.lookup x.txID = none :=
  mem_maskedIterator.trans (and_congr_left' mem_mergedIterator)

theorem read_validator (d : DiffStakers) (p : Stakers) (k : ID × NodeID) : (d.read p).validator k =
      if (d.entry k).validatorModified then
        if (d.entry k).validatorDeleted then none else (d.entry k).validator
      else p.validator k := by
  show (d.getValidator k.1 k.2).getD _ = _
  rw [getValidator_eq]
  split
  · split <;> rfl
  · rfl

/-- The diff adds stakers from new transactions and removes stakers of the parent, and its
    entries and its lists say the same. -/
structure Fits (d : DiffStakers) (p : Stakers) : Prop where
  ascending : Ascending d.addedStakers
  ascending_delegators : ∀ k, Ascending (d.entry k).addedDelegators
  put : ∀ {k}, (d.entry k).validatorModified = true → (d.entry k).validatorDeleted = false →
    p.validator k = none ∧ ∃ s, (d.entry k).validator = some s ∧ s.slot = k ∧ s ∈ d.addedStakers
  deleted : ∀ {k}, (d.entry k).validatorModified = true → (d.entry k).validatorDeleted = true →
    ∃ s, (d.entry k).validator = some s ∧ p.validator k = some s ∧
      d.deletedStakers.lookup s.txID = some s
  added_delegator : ∀ {k s}, s ∈ (d.entry k).addedDelegators → s.slot = k ∧ s ∈ d.addedStakers
  deleted_delegator : ∀ {k id s}, (d.entry k).deletedDelegators.lookup id = some s →
    s.txID = id ∧ s ∈ p.delegators k ∧ d.deletedStakers.lookup id = some s
  added : ∀ {s}, s ∈ d.addedStakers →
    (d.entry s.slot).validatorModified = true ∧ (d.entry s.slot).validatorDeleted = false ∧
      (d.entry s.slot).validator = some s ∨ s ∈ (d.entry s.slot).addedDelegators
  deleted_staker : ∀ {id s}, d.deletedStakers.lookup id = some s →
    s.txID = id ∧ ((d.entry s.slot).validatorModified = true ∧
      (d.entry s.slot).validatorDeleted = true ∧ p.validator s.slot = some s ∨
      (d.entry s.slot).deletedDelegators.lookup id = some s)
  lacks : ∀ {s}, s ∈ d.addedStakers → p.Lacks s.txID

namespace Fits

section

variable (h : d.Fits p) (hp : p.Coherent) {id : ID}

include h hp

/-- The removed stakers are the parent's. -/
theorem deleted_mem (hs : d.deletedStakers.lookup id = some s) : s ∈ p.stakers := by
  obtain ⟨-, ⟨-, -, hval⟩ | hdel⟩ := h.deleted_staker hs
  · exact hp.mem_of_validator hval
  · exact hp.mem_of_delegator (h.deleted_delegator hdel).2.1

theorem not_deleted (hlacks : p.Lacks id) : d.deletedStakers.lookup id = none := by
  cases hs : d.deletedStakers.lookup id with
  | none => rfl
  | some s => exact absurd (h.deleted_staker hs).1 (hlacks s (h.deleted_mem hp hs))

theorem not_deleted_delegator (hlacks : p.Lacks id)
    (k : ID × NodeID) : (d.entry k).deletedDelegators.lookup id = none := by
  cases hs : (d.entry k).deletedDelegators.lookup id with
  | none => rfl
  | some s =>
    exact absurd (h.deleted_delegator hs).1
      (hlacks s (hp.mem_of_delegator (h.deleted_delegator hs).2.1))

/-- A transaction that neither the parent nor the view has is new to the diff. -/
theorem added_lacks (hread : (d.read p).Lacks id) : ∀ t ∈ d.addedStakers, t.txID ≠ id := by
  intro t ht
  exact hread t (mem_read_stakers.mpr ⟨.inr ht, h.not_deleted hp (h.lacks ht)⟩)

/-- The stakers that are read are the validators and delegators that are read. -/
theorem mem_read_iff : x ∈ (d.read p).stakers ↔
    (d.read p).validator x.slot = some x ∨ x ∈ (d.read p).delegators x.slot := by
  -- a staker of the parent is removed as what it is
  have hdeleted : ∀ {t}, x ∈ p.stakers → d.deletedStakers.lookup x.txID = some t → t = x :=
    fun hx ht => hp.txID_inj (h.deleted_mem hp ht) hx (h.deleted_staker ht).1
  have hfresh : x ∈ d.addedStakers → d.deletedStakers.lookup x.txID = none :=
    fun hx => h.not_deleted hp (h.lacks hx)
  rw [mem_read_stakers, mem_read_delegators, read_validator]
  cases hlookup : d.deletedStakers.lookup x.txID with
  | none =>
    have hkept : (d.entry x.slot).deletedDelegators.lookup x.txID = none := by
      cases ht : (d.entry x.slot).deletedDelegators.lookup x.txID with
      | none => rfl
      | some t =>
        rw [(h.deleted_delegator ht).2.2] at hlookup
        cases hlookup
    grind [h.put, h.deleted, h.added, hp.mem_iff, h.added_delegator]
  | some t =>
    grind [h.put, h.deleted_staker, h.deleted_delegator, hp.exclusive, hp.mem_iff, h.added_delegator]

theorem ascending_read_stakers : Ascending (d.read p).stakers :=
  (hp.ascending.merged h.ascending fun _ hs => h.lacks hs).masked _

theorem ascending_read_delegators (k : ID × NodeID) : Ascending ((d.read p).delegators k) :=
  ((hp.ascending_delegators k).merged (h.ascending_delegators k) fun _ hs =>
    hp.lacks_delegators (h.lacks (h.added_delegator hs).2) k).masked _

end

theorem empty (p : Stakers) : DiffStakers.empty.Fits p where
  ascending := .nil
  ascending_delegators := fun _ => .nil
  put := fun h => Bool.noConfusion h
  deleted := fun h => Bool.noConfusion h
  added_delegator := fun h => absurd h List.not_mem_nil
  deleted_delegator := fun h => by cases h
  added := fun h => absurd h List.not_mem_nil
  deleted_staker := fun h => by cases h
  lacks := fun h => absurd h List.not_mem_nil

end Fits

/-! ## The updates -/

section

variable (d : DiffStakers) (s : Staker) (k : ID × NodeID)

theorem entry_putValidator : (d.putValidator s).entry k =
      if k = s.slot then (d.entry s.slot).putValidator s else d.entry k :=
  entry_modifyDiff d s.slot k (·.putValidator s)

theorem entry_deleteValidator : (d.deleteValidator s).entry k =
      if k = s.slot then (d.entry s.slot).deleteValidator s else d.entry k :=
  entry_modifyDiff d s.slot k (·.deleteValidator s)

theorem entry_putDelegator : (d.putDelegator s).entry k =
      if k = s.slot then (d.entry s.slot).putDelegator s else d.entry k :=
  entry_modifyDiff d s.slot k (·.putDelegator s)

theorem entry_deleteDelegator : (d.deleteDelegator s).entry k =
      if k = s.slot then (d.entry s.slot).deleteDelegator s else d.entry k :=
  entry_modifyDiff d s.slot k (·.deleteDelegator s)

end

/-- Over the parent the diff reads as a coherent staker set. -/
structure Changes (d : DiffStakers) (p v : Stakers) : Prop where
  fits : d.Fits p
  read_eq : d.read p = v
  coherent : v.Coherent

namespace Changes

/-- The diff reads as a staker set if the validators and delegators are the same. -/
theorem of_fits (hp : p.Coherent) (hfits : d.Fits p) (hv : v.Coherent)
    (hval : ∀ k, (d.read p).validator k = v.validator k)
    (hdel : ∀ k x, x ∈ (d.read p).delegators k ↔ x ∈ v.delegators k) : d.Changes p v := by
  have hstakers : (d.read p).stakers = v.stakers :=
    (hfits.ascending_read_stakers hp).eq_of_mem_iff hv.ascending fun x => by
      rw [hfits.mem_read_iff hp, hv.mem_iff, hval, hdel]
  have hdelegators : ∀ k, (d.read p).delegators k = v.delegators k := fun k =>
    (hfits.ascending_read_delegators hp k).eq_of_mem_iff (hv.ascending_delegators k) (hdel k)
  obtain ⟨validator, delegators, stakers⟩ := v
  obtain rfl : _ = validator := funext hval
  obtain rfl : _ = delegators := funext hdelegators
  obtain rfl : _ = stakers := hstakers
  exact ⟨hfits, rfl, hv⟩

theorem empty (hp : p.Coherent) : DiffStakers.empty.Changes p p := by
  refine of_fits hp (.empty p) hp (fun k => rfl) fun k x => ?_
  rw [mem_read_delegators]
  exact ⟨fun h => h.1.resolve_right List.not_mem_nil, fun h => ⟨.inl h, rfl⟩⟩

section

variable (h : d.Changes p v)

include h

/-- A slot without a validator here and in the parent was not modified. -/
theorem not_modified_of_none (hp : p.validator k = none)
    (hv : v.validator k = none) : (d.entry k).validatorModified = false := by
  cases hmod : (d.entry k).validatorModified with
  | false => rfl
  | true =>
    cases hdel : (d.entry k).validatorDeleted with
    | false =>
      obtain ⟨-, s, hs, -⟩ := h.fits.put hmod hdel
      rw [← h.read_eq, read_validator, hmod, hdel, hs] at hv
      cases hv
    | true =>
      obtain ⟨s, -, hs, -⟩ := h.fits.deleted hmod hdel
      rw [hp] at hs
      cases hs

/-- A slot that still has the parent's validator was not modified. -/
theorem not_modified_of_some (hp : p.validator k = some s)
    (hv : v.validator k = some s) : (d.entry k).validatorModified = false := by
  cases hmod : (d.entry k).validatorModified with
  | false => rfl
  | true =>
    cases hdel : (d.entry k).validatorDeleted with
    | false =>
      rw [(h.fits.put hmod hdel).1] at hp
      cases hp
    | true =>
      rw [← h.read_eq, read_validator, hmod, hdel] at hv
      cases hv

theorem putValidator (hp : p.Coherent) (hnone : p.validator s.slot = none)
    (hlacks : p.Lacks s.txID) (hvnone : v.validator s.slot = none) (hvlacks : v.Lacks s.txID) :
    (d.putValidator s).Changes p (v.putValidator s) := by
  have hmod := h.not_modified_of_none hnone hvnone
  have hmem : ∀ {x}, x ∈ (d.putValidator s).addedStakers ↔ x = s ∨ x ∈ d.addedStakers :=
    h.fits.ascending.mem_replaceOrInsert (h.fits.added_lacks hp (h.read_eq ▸ hvlacks))
  have hdele : (d.putValidator s).deletedStakers = d.deletedStakers := rfl
  -- only the validator of the slot changes
  have hentry := entry_putValidator d s
  unfold DiffValidator.putValidator at hentry
  have hfits : (d.putValidator s).Fits p :=
    { ascending := h.fits.ascending.replaceOrInsert s
      ascending_delegators := by grind [h.fits.ascending_delegators]
      put := by grind [h.fits.put]
      deleted := by grind [h.fits.deleted]
      added_delegator := by grind [h.fits.added_delegator]
      deleted_delegator := by grind [h.fits.deleted_delegator]
      added := by grind [h.fits.added]
      deleted_staker := by grind [h.fits.deleted_staker]
      lacks := by grind [h.fits.lacks] }
  have hv : (v.putValidator s).Coherent := h.coherent.putValidator hvnone hvlacks
  refine of_fits hp hfits hv (fun k => ?_) fun k x => ?_
  · rw [read_validator, entry_putValidator]
    by_cases hk : k = s.slot
    · rw [if_pos hk, hk]
      exact (Function.update_self s.slot (some s) v.validator).symm
    rw [if_neg hk, ← read_validator, h.read_eq]
    exact (Function.update_of_ne hk (some s) v.validator).symm
  have hread := h.read_eq ▸ mem_read_delegators (d := d) (p := p) (x := x) (k := k)
  show _ ↔ x ∈ v.delegators k
  grind [mem_read_delegators]

/-- Marking a staker of the parent as removed keeps the others. -/
theorem lookup_deletedStakers {d' : DiffStakers} (hp : p.Coherent)
    (hs : s ∈ p.stakers) (hlookup : ∀ id, d'.deletedStakers.lookup id =
      if id = s.txID then some s else d.deletedStakers.lookup id) (id : ID) (t : Staker)
    (ht : d.deletedStakers.lookup id = some t) : d'.deletedStakers.lookup id = some t := by
  rw [hlookup]
  split
  · rename_i hid
    rw [hp.txID_inj hs (h.fits.deleted_mem hp ht) ((h.fits.deleted_staker ht).1.trans hid).symm]
  · exact ht

theorem deleteValidator (hp : p.Coherent) (hsome : p.validator s.slot = some s)
    (hvsome : v.validator s.slot = some s) :
    (d.deleteValidator s).Changes p (v.deleteValidator s) := by
  have hmod := h.not_modified_of_some hsome hvsome
  have hlookup : ∀ id, (d.deleteValidator s).deletedStakers.lookup id =
      if id = s.txID then some s else d.deletedStakers.lookup id :=
    fun id => Finmap.lookup_insert_ite ..
  have hmono := h.lookup_deletedStakers hp (hp.mem_of_validator hsome) hlookup
  have hadd : (d.deleteValidator s).addedStakers = d.addedStakers := rfl
  -- only the validator of the slot changes
  have hentry := entry_deleteValidator d s
  unfold DiffValidator.deleteValidator at hentry
  have hfits : (d.deleteValidator s).Fits p :=
    { ascending := h.fits.ascending
      ascending_delegators := by grind [h.fits.ascending_delegators]
      put := by grind [h.fits.put]
      deleted := by grind [h.fits.deleted]
      added_delegator := by grind [h.fits.added_delegator]
      deleted_delegator := by grind [h.fits.deleted_delegator]
      added := by grind [h.fits.added]
      deleted_staker := by grind [h.fits.deleted_staker]
      lacks := h.fits.lacks }
  have hv : (v.deleteValidator s).Coherent := h.coherent.deleteValidator hvsome
  refine of_fits hp hfits hv (fun k => ?_) fun k x => ?_
  · rw [read_validator, entry_deleteValidator]
    by_cases hk : k = s.slot
    · rw [if_pos hk, hk]
      exact (Function.update_self s.slot none v.validator).symm
    rw [if_neg hk, ← read_validator, h.read_eq]
    exact (Function.update_of_ne hk none v.validator).symm
  have hread := h.read_eq ▸ mem_read_delegators (d := d) (p := p) (x := x) (k := k)
  show _ ↔ x ∈ v.delegators k
  grind [mem_read_delegators]

theorem putDelegator (hp : p.Coherent) (hlacks : p.Lacks s.txID)
    (hvlacks : v.Lacks s.txID) : (d.putDelegator s).Changes p (v.putDelegator s) := by
  have hnew := h.fits.added_lacks hp (h.read_eq ▸ hvlacks)
  have hmem : ∀ {x}, x ∈ (d.putDelegator s).addedStakers ↔ x = s ∨ x ∈ d.addedStakers :=
    h.fits.ascending.mem_replaceOrInsert hnew
  have hdele : (d.putDelegator s).deletedStakers = d.deletedStakers := rfl
  -- only the new delegators of the slot change
  have hentry := entry_putDelegator d s
  unfold DiffValidator.putDelegator at hentry
  have hadd : ∀ {k x}, x ∈ ((d.putDelegator s).entry k).addedDelegators ↔
      x = s ∧ s.slot = k ∨ x ∈ (d.entry k).addedDelegators := by
    intro k x
    have hinsert := (h.fits.ascending_delegators s.slot).mem_replaceOrInsert (x := x) fun t ht =>
      hnew t (h.fits.added_delegator ht).2
    grind
  have hfits : (d.putDelegator s).Fits p :=
    { ascending := h.fits.ascending.replaceOrInsert s
      ascending_delegators := by grind [h.fits.ascending_delegators, Ascending.replaceOrInsert]
      put := by grind [h.fits.put]
      deleted := by grind [h.fits.deleted]
      added_delegator := by grind [h.fits.added_delegator]
      deleted_delegator := by grind [h.fits.deleted_delegator]
      added := by grind [h.fits.added]
      deleted_staker := by grind [h.fits.deleted_staker]
      lacks := by grind [h.fits.lacks] }
  have hv : (v.putDelegator s).Coherent := h.coherent.putDelegator hvlacks
  refine of_fits hp hfits hv (fun k => ?_) fun k x => ?_
  · show _ = v.validator k
    grind [read_validator, h.read_eq]
  have hread := h.read_eq ▸ mem_read_delegators (d := d) (p := p) (x := x) (k := k)
  have hkept := h.fits.not_deleted_delegator hp hlacks k
  rw [h.coherent.mem_delegators_putDelegator hvlacks]
  grind [mem_read_delegators]

theorem deleteDelegator (hp : p.Coherent) (hmem : s ∈ p.delegators s.slot)
    (hvmem : s ∈ v.delegators s.slot) : (d.deleteDelegator s).Changes p (v.deleteDelegator s) := by
  have hlookup : ∀ id, (d.deleteDelegator s).deletedStakers.lookup id =
      if id = s.txID then some s else d.deletedStakers.lookup id :=
    fun id => Finmap.lookup_insert_ite ..
  have hmono := h.lookup_deletedStakers hp (hp.mem_of_delegator hmem) hlookup
  have hadd : (d.deleteDelegator s).addedStakers = d.addedStakers := rfl
  -- only the removed delegators of the slot change
  have hentry := entry_deleteDelegator d s
  unfold DiffValidator.deleteDelegator at hentry
  have hdel : ∀ k id, ((d.deleteDelegator s).entry k).deletedDelegators.lookup id =
      if k = s.slot ∧ id = s.txID then some s else (d.entry k).deletedDelegators.lookup id := by
    intro k id
    have hinsert := Finmap.lookup_insert_ite (d.entry s.slot).deletedDelegators s.txID id s
    grind
  have hfits : (d.deleteDelegator s).Fits p :=
    { ascending := h.fits.ascending
      ascending_delegators := by grind [h.fits.ascending_delegators]
      put := by grind [h.fits.put]
      deleted := by grind [h.fits.deleted]
      added_delegator := by grind [h.fits.added_delegator]
      deleted_delegator := by grind [h.fits.deleted_delegator]
      added := by grind [h.fits.added]
      deleted_staker := by grind [h.fits.deleted_staker]
      lacks := h.fits.lacks }
  have hv : (v.deleteDelegator s).Coherent := h.coherent.deleteDelegator hvmem
  refine of_fits hp hfits hv (fun k => ?_) fun k x => ?_
  · show _ = v.validator k
    grind [read_validator, h.read_eq]
  have hread := h.read_eq ▸ mem_read_delegators (d := d) (p := p) (x := x) (k := k)
  -- the delegator of the transaction is `s`, and it is of this slot
  have hinj : x ∈ v.delegators k → x.txID = s.txID → x = s := fun hx hid =>
    h.coherent.txID_inj (h.coherent.mem_of_delegator hx) (h.coherent.mem_of_delegator hvmem) hid
  rw [h.coherent.mem_delegators_deleteDelegator hvmem, mem_read_delegators, hdel]
  grind [hp.delegator_slot, h.fits.added_delegator]

end

end Changes

end DiffStakers

end SavannahNode
