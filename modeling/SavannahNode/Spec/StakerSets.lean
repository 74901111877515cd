import SavannahNode.Spec.DiffStakers

/-!
# Staker sets by their members

A coherent staker set is determined by which stakers are its validators and which its
delegators. This module says how the operations change the two, first one staker at a time
and then for the lists of stakers that a transaction moves.

## Key results

* `Changes.putValidators`, `Changes.deleteValidators`, `Changes.putDelegators`,
  `Changes.deleteDelegators` — a list of stakers put into or deleted from a diff.
-/

namespace SavannahNode

open List

namespace Stakers

/-- The staker is the validator of its subnet and node. -/
def IsValidator (v : Stakers) (s : Staker) : Prop := v.validator s.slot = some s

/-- The staker is a delegator of its subnet and node. -/
def IsDelegator (v : Stakers) (s : Staker) : Prop := s ∈ v.delegators s.slot

namespace Coherent

variable {v : Stakers} {s x : Staker}

section

variable (h : v.Coherent)

include h

theorem mem_stakers : s ∈ v.stakers ↔ v.IsValidator s ∨ v.IsDelegator s := h.mem_iff s

theorem validator_eq_some {k : ID × NodeID} :
    v.validator k = some s ↔ v.IsValidator s ∧ s.slot = k := by
  constructor
  · intro hs
    obtain rfl := h.validator_slot hs
    exact ⟨hs, rfl⟩
  · rintro ⟨hs, rfl⟩
    exact hs

theorem nodup : v.stakers.Nodup :=
  h.ascending.imp fun hlt heq => by
    rw [heq] at hlt
    exact lt_irrefl _ ((Staker.less_iff _ _).mp hlt)

/-- The stakers are known up to their order by their members. -/
theorem perm_stakers {l : List Staker} (hl : l.Nodup)
    (hmem : ∀ x, x ∈ v.stakers ↔ x ∈ l) : v.stakers.Perm l :=
  (perm_ext_iff_of_nodup h.nodup hl).mpr hmem

/-- A set from which one staker was deleted. -/
theorem perm_cons {v' : Stakers} (hv' : v'.Coherent) (hs : s ∈ v.stakers)
    (hmem : ∀ x, x ∈ v'.stakers ↔ x ∈ v.stakers ∧ x ≠ s) : v.stakers.Perm (s :: v'.stakers) := by
  refine h.perm_stakers (nodup_cons.mpr ⟨fun hs' => ((hmem s).mp hs').2 rfl, hv'.nodup⟩) fun x => ?_
  rw [mem_cons, hmem]
  by_cases hx : x = s
  · subst hx
    exact iff_of_true hs (.inl rfl)
  · exact ⟨fun h => .inr ⟨h, hx⟩, fun h => (h.resolve_left hx).1⟩

end

theorem isValidator_putValidator (hnone : v.validator s.slot = none) :
    (v.putValidator s).IsValidator x ↔ x = s ∨ v.IsValidator x := by
  rw [IsValidator, IsValidator, Stakers.putValidator]
  by_cases hk : x.slot = s.slot
  · simp only [hk, Function.update_self, hnone, Option.some.injEq, reduceCtorEq, or_false]
    exact eq_comm
  simp only [Function.update_of_ne hk]
  exact ⟨.inr, fun h => h.resolve_left fun heq => hk (congrArg _ heq)⟩

theorem isValidator_deleteValidator (hs : v.IsValidator s) :
    (v.deleteValidator s).IsValidator x ↔ v.IsValidator x ∧ x ≠ s := by
  rw [IsValidator, IsValidator, Stakers.deleteValidator]
  rw [IsValidator] at hs
  by_cases hk : x.slot = s.slot
  · simp only [hk, Function.update_self, hs, Option.some.injEq, reduceCtorEq, false_iff, not_and,
      not_not]
    exact Eq.symm
  simp only [Function.update_of_ne hk]
  exact ⟨fun h => ⟨h, fun heq => hk (congrArg _ heq)⟩, And.left⟩

theorem isDelegator_putDelegator (h : v.Coherent) (hfresh : v.Lacks s.txID) :
    (v.putDelegator s).IsDelegator x ↔ x = s ∨ v.IsDelegator x := by
  rw [IsDelegator, h.mem_delegators_putDelegator hfresh]
  refine or_congr_left ⟨And.left, fun heq => ⟨heq, congrArg _ heq.symm⟩⟩

theorem isDelegator_deleteDelegator (h : v.Coherent) (hs : v.IsDelegator s) :
    (v.deleteDelegator s).IsDelegator x ↔ v.IsDelegator x ∧ x ≠ s :=
  h.mem_delegators_deleteDelegator hs

/-- A set lacks a transaction that none of its validators and delegators is from. -/
theorem lacks_iff (h : v.Coherent) {id : ID} :
    v.Lacks id ↔ ∀ t, v.IsValidator t ∨ v.IsDelegator t → t.txID ≠ id :=
  ⟨fun hl t ht => hl t (h.mem_stakers.mpr ht), fun hl t ht => hl t (h.mem_stakers.mp ht)⟩

/-- No validator has the slot. -/
theorem validator_eq_none (h : v.Coherent) {k : ID × NodeID} :
    v.validator k = none ↔ ∀ t, v.IsValidator t → t.slot ≠ k := by
  constructor
  · intro hnone t ht hk
    rw [h.validator_eq_some.mpr ⟨ht, hk⟩] at hnone
    cases hnone
  intro hall
  cases hk : v.validator k with
  | none => rfl
  | some t =>
    obtain ⟨ht, hslot⟩ := h.validator_eq_some.mp hk
    exact absurd hslot (hall t ht)

end Coherent

end Stakers

namespace DiffStakers.Changes

open Stakers

variable {d : DiffStakers} {p v : Stakers} {l : List Staker}

section

variable (h : d.Changes p v) (hp : p.Coherent)

include h hp

/-- Put a list of validators. -/
theorem putValidators (hslots : (l.map Staker.slot).Nodup) (htxs : (l.map Staker.txID).Nodup)
    (hfree : ∀ s ∈ l, p.validator s.slot = none ∧ v.validator s.slot = none)
    (hlacks : ∀ s ∈ l, p.Lacks s.txID ∧ v.Lacks s.txID) :
    ∃ w, (l.foldl DiffStakers.putValidator d).Changes p w ∧
      (∀ x, w.IsValidator x ↔ x ∈ l ∨ v.IsValidator x) ∧
      ∀ x, w.IsDelegator x ↔ v.IsDelegator x := by
  induction l generalizing d v with
  | nil => exact ⟨v, h, by simp, fun x => Iff.rfl⟩
  | cons s l ih =>
    simp only [map_cons, nodup_cons, mem_map, not_exists, not_and] at hslots htxs
    obtain ⟨hpfree, hvfree⟩ := hfree s mem_cons_self
    obtain ⟨hplacks, hvlacks⟩ := hlacks s mem_cons_self
    have hput := h.putValidator hp hpfree hplacks hvfree hvlacks
    have hval : ∀ x, (v.putValidator s).IsValidator x ↔ x = s ∨ v.IsValidator x :=
      fun x => Coherent.isValidator_putValidator hvfree
    obtain ⟨w, hw, hwv, hwd⟩ := ih hput hslots.2 htxs.2
      (by
        intro t ht
        obtain ⟨hpt, hvt⟩ := hfree t (mem_cons_of_mem s ht)
        refine ⟨hpt, hput.coherent.validator_eq_none.mpr fun u hu hk => ?_⟩
        rcases (hval u).mp hu with rfl | hu
        · exact hslots.1 t ht hk.symm
        · exact h.coherent.validator_eq_none.mp hvt u hu hk)
      (by
        intro t ht
        obtain ⟨hpt, hvt⟩ := hlacks t (mem_cons_of_mem s ht)
        refine ⟨hpt, fun u hu heq => ?_⟩
        rcases (h.coherent.mem_putValidator hvlacks).mp hu with rfl | hu
        · exact htxs.1 t ht heq.symm
        · exact hvt u hu heq)
    refine ⟨w, hw, fun x => ?_, hwd⟩
    rw [hwv, hval, mem_cons]
    tauto

/-- Delete a list of validators. -/
theorem deleteValidators (hnodup : l.Nodup) (hmem : ∀ s ∈ l, p.IsValidator s ∧ v.IsValidator s) :
    ∃ w, (l.foldl DiffStakers.deleteValidator d).Changes p w ∧
      (∀ x, w.IsValidator x ↔ v.IsValidator x ∧ x ∉ l) ∧
      ∀ x, w.IsDelegator x ↔ v.IsDelegator x := by
  induction l generalizing d v with
  | nil => exact ⟨v, h, by simp, fun x => Iff.rfl⟩
  | cons s l ih =>
    rw [nodup_cons] at hnodup
    obtain ⟨hps, hvs⟩ := hmem s mem_cons_self
    have hval : ∀ x, (v.deleteValidator s).IsValidator x ↔ v.IsValidator x ∧ x ≠ s :=
      fun x => Coherent.isValidator_deleteValidator hvs
    obtain ⟨w, hw, hwv, hwd⟩ := ih (h.deleteValidator hp hps hvs) hnodup.2
      (by
        intro t ht
        obtain ⟨hpt, hvt⟩ := hmem t (mem_cons_of_mem s ht)
        refine ⟨hpt, (hval t).mpr ⟨hvt, ?_⟩⟩
        rintro rfl
        exact hnodup.1 ht)
    refine ⟨w, hw, fun x => ?_, hwd⟩
    rw [hwv, hval, mem_cons]
    tauto

/-- Put a list of delegators. -/
theorem putDelegators (htxs : (l.map Staker.txID).Nodup)
    (hlacks : ∀ s ∈ l, p.Lacks s.txID ∧ v.Lacks s.txID) :
    ∃ w, (l.foldl DiffStakers.putDelegator d).Changes p w ∧
      (∀ x, w.IsValidator x ↔ v.IsValidator x) ∧
      ∀ x, w.IsDelegator x ↔ x ∈ l ∨ v.IsDelegator x := by
  induction l generalizing d v with
  | nil => exact ⟨v, h, fun x => Iff.rfl, by simp⟩
  | cons s l ih =>
    simp only [map_cons, nodup_cons, mem_map, not_exists, not_and] at htxs
    obtain ⟨hplacks, hvlacks⟩ := hlacks s mem_cons_self
    have hdel : ∀ x, (v.putDelegator s).IsDelegator x ↔ x = s ∨ v.IsDelegator x :=
      fun x => h.coherent.isDelegator_putDelegator hvlacks
    obtain ⟨w, hw, hwv, hwd⟩ := ih (h.putDelegator hp hplacks hvlacks) htxs.2
      (by
        intro t ht
        obtain ⟨hpt, hvt⟩ := hlacks t (mem_cons_of_mem s ht)
        refine ⟨hpt, fun u hu heq => ?_⟩
        rcases (h.coherent.mem_putDelegator hvlacks).mp hu with rfl | hu
        · exact htxs.1 t ht heq.symm
        · exact hvt u hu heq)
    refine ⟨w, hw, hwv, fun x => ?_⟩
    rw [hwd, hdel, mem_cons]
    tauto

/-- Delete a list of delegators. -/
theorem deleteDelegators (hnodup : l.Nodup) (hmem : ∀ s ∈ l, p.IsDelegator s ∧ v.IsDelegator s) :
    ∃ w, (l.foldl DiffStakers.deleteDelegator d).Changes p w ∧
      (∀ x, w.IsValidator x ↔ v.IsValidator x) ∧
      ∀ x, w.IsDelegator x ↔ v.IsDelegator x ∧ x ∉ l := by
  induction l generalizing d v with
  | nil => exact ⟨v, h, fun x => Iff.rfl, by simp⟩
  | cons s l ih =>
    rw [nodup_cons] at hnodup
    obtain ⟨hps, hvs⟩ := hmem s mem_cons_self
    have hdel : ∀ x, (v.deleteDelegator s).IsDelegator x ↔ v.IsDelegator x ∧ x ≠ s :=
      fun x => h.coherent.isDelegator_deleteDelegator hvs
    obtain ⟨w, hw, hwv, hwd⟩ := ih (h.deleteDelegator hp hps hvs) hnodup.2
      (by
        intro t ht
        obtain ⟨hpt, hvt⟩ := hmem t (mem_cons_of_mem s ht)
        refine ⟨hpt, (hdel t).mpr ⟨hvt, ?_⟩⟩
        rintro rfl
        exact hnodup.1 ht)
    refine ⟨w, hw, hwv, fun x => ?_⟩
    rw [hwd, hdel, mem_cons]
    tauto

end

end DiffStakers.Changes

end SavannahNode
