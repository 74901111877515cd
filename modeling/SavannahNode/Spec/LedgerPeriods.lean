import SavannahNode.Spec.LedgerRecords

/-!
# Transactions keep the periods of stakers

A staker that is enlisted lies inside the period of its node's validator, an advance of the
time moves a validator no later than what depends on it, and a validator retires after
everything that depends on it. The order of stakers with equal times matters for the last
two: subnet validators leave the current set before delegators, and those before validators.

## Key results

* `Chain.Periods.enlist`, `Chain.Periods.advance`, `Chain.Periods.retire` — the three ways a
  transaction changes the staker sets.
-/

namespace SavannahNode.PlatformVM

open Ledger

/-- What `canDelegate` has checked when it says yes. -/
theorem canDelegate_eq_true {c : Chain} {v d : Staker} {limit : Nat}
    (h : canDelegate c v limit d = some true) :
    d.Inside v ∧ ∃ maxWeight, getMaxWeight c v d.startTime d.endTime = some maxWeight ∧
      maxWeight + d.weight ≤ limit := by
  rw [canDelegate] at h
  split at h
  · cases h
  rename_i hstart
  split at h
  · cases h
  rename_i hend
  obtain ⟨maxWeight, hmax, h⟩ := Option.bind_eq_some_iff.mp h
  obtain ⟨newMaxWeight, hadd, h⟩ := Option.bind_eq_some_iff.mp h
  obtain rfl := add64_eq_some hadd
  exact ⟨⟨not_lt.mp hstart, not_lt.mp hend⟩, maxWeight, hmax, of_decide_eq_true (Option.some.inj h)⟩

namespace Ledger.Becomes

variable {s x : Staker}

theorem same (h : Becomes s x) : s.Same x where
  txID := (congrArg Staker.txID h.eq).trans rfl
  nodeID := (congrArg Staker.nodeID h.eq).trans rfl
  subnetID := (congrArg Staker.subnetID h.eq).trans rfl
  weight := (congrArg Staker.weight h.eq).trans rfl
  startTime := (congrArg Staker.startTime h.eq).trans rfl
  endTime := (congrArg Staker.endTime h.eq).trans rfl

theorem nextTime (h : Becomes s x) : x.nextTime = s.endTime :=
  (congrArg Staker.nextTime h.eq).trans rfl

theorem priority (h : Becomes s x) : x.priority = pendingToCurrentPriorities s.priority :=
  (congrArg Staker.priority h.eq).trans rfl

end Ledger.Becomes

namespace Chain.Periods

variable {b : Backend} {c : Chain} {stx : Tx} {s : Staker} {current pending : Stakers}

section

variable (h : c.Periods) {nodeID : NodeID} {v : Staker}

include h

/-! ## Enlisting -/

/-- A validator of the node is still found after a pending validator was added. -/
theorem getValidator_kept (hkept : ∀ x, c.pending.IsValidator x → pending.IsValidator x)
    (hcoh : pending.Coherent) {subnetID : ID} (hv : c.getValidator subnetID nodeID = some v) :
    ({ c with pending } : Chain).getValidator subnetID nodeID = some v := by
  rw [getValidator]
  cases hcurrent : c.current.validator (subnetID, nodeID) with
  | some w =>
    rw [getValidator, hcurrent] at hv
    exact hv
  | none =>
    rw [getValidator, hcurrent] at hv
    obtain ⟨hval, hslot⟩ := h.pending.validator_eq_some.mp hv
    exact hcoh.validator_eq_some.mpr ⟨hkept v hval, hslot⟩

/-- One staker is added to the pending ones. -/
theorem addPending (hcoh : pending.Coherent)
    (hval : ∀ x, pending.IsValidator x → c.pending.IsValidator x ∨ x = s ∧
      (s.subnetID = primaryNetworkID ∧ s.priority = primaryNetworkValidatorPendingPriority ∨
        s.subnetID ≠ primaryNetworkID ∧ s.priority = subnetValidatorPendingPriority) ∧
      c.current.validator s.slot = none)
    (hdel : ∀ x, pending.IsDelegator x → c.pending.IsDelegator x ∨ x = s ∧
      s.subnetID = primaryNetworkID ∧ s.priority = primaryNetworkDelegatorPendingPriority)
    (hkept : ∀ x, c.pending.IsValidator x → pending.IsValidator x)
    (htimes : s.nextTime = s.startTime ∧ c.timestamp < s.startTime ∧ s.startTime < s.endTime)
    (hlacks : c.current.Lacks s.txID)
    (hinside : pending.Depends s →
      ∃ v, c.getValidator primaryNetworkID s.nodeID = some v ∧ s.Inside v) :
    ({ c with pending } : Chain).Periods := by
  have hmem : ∀ x ∈ pending.stakers, x ∈ c.pending.stakers ∨ x = s := by
    intro x hx
    have hnew := hcoh.mem_stakers (s := x)
    have hold := h.pending.mem_stakers (s := x)
    grind
  have hget : ∀ x v, c.getValidator primaryNetworkID x = some v →
      ({ c with pending } : Chain).getValidator primaryNetworkID x = some v :=
    fun _ _ => h.getValidator_kept hkept hcoh
  exact
    { h with
      pending := hcoh
      pending_times := by grind [h.pending_times]
      pending_validator := by grind [h.pending_validator]
      pending_delegator := by grind [h.pending_delegator]
      one_validator := by grind [h.one_validator, h.current.validator_eq_none]
      different_txs := by grind [h.different_txs, Stakers.Lacks]
      pending_inside := by
        intro x hx
        have hold := h.pending_inside x
        grind [Stakers.Depends] }

/-- A validator is added to the pending ones. -/
theorem putValidator
    (hfree : c.getValidator s.subnetID s.nodeID = none)
    (hrole : s.subnetID = primaryNetworkID ∧ s.priority = primaryNetworkValidatorPendingPriority ∨
      s.subnetID ≠ primaryNetworkID ∧ s.priority = subnetValidatorPendingPriority)
    (htimes : s.nextTime = s.startTime ∧ c.timestamp < s.startTime ∧ s.startTime < s.endTime)
    (hlacks : c.current.Lacks s.txID ∧ c.pending.Lacks s.txID)
    (hinside : s.subnetID ≠ primaryNetworkID →
      ∃ v, c.getValidator primaryNetworkID s.nodeID = some v ∧ s.Inside v) :
    ({ c with pending := c.pending.putValidator s } : Chain).Periods := by
  obtain ⟨hcurrent, hpending⟩ := getValidator_eq_none (c := c) (by rw [hfree]; exact Bool.noConfusion)
  have hval := fun x => Stakers.Coherent.isValidator_putValidator (x := x) hpending
  refine h.addPending (h.pending.putValidator hpending hlacks.2) (fun x hx => ?_)
    (fun x hx => .inl hx) (fun x hx => (hval x).mpr (.inr hx)) htimes hlacks.1 ?_
  · rcases (hval x).mp hx with rfl | hx
    · exact .inr ⟨rfl, hrole, hcurrent⟩
    · exact .inl hx
  · rintro (hdep | ⟨-, hsubnet⟩)
    · -- no delegator of the set comes from the new transaction
      exact absurd rfl (hlacks.2 s (h.pending.mem_stakers.mpr (.inr hdep)))
    · exact hinside hsubnet

/-- A delegator is added to the pending ones. -/
theorem putDelegator
    (hrole : s.subnetID = primaryNetworkID ∧ s.priority = primaryNetworkDelegatorPendingPriority)
    (htimes : s.nextTime = s.startTime ∧ c.timestamp < s.startTime ∧ s.startTime < s.endTime)
    (hlacks : c.current.Lacks s.txID ∧ c.pending.Lacks s.txID)
    (hinside : ∃ v, c.getValidator primaryNetworkID s.nodeID = some v ∧ s.Inside v) :
    ({ c with pending := c.pending.putDelegator s } : Chain).Periods := by
  refine h.addPending (h.pending.putDelegator hlacks.2) (fun x hx => .inl hx) (fun x hx => ?_)
    (fun x hx => hx) htimes hlacks.1 fun _ => hinside
  rw [h.pending.isDelegator_putDelegator hlacks.2] at hx
  rcases hx with rfl | hx
  · exact .inr ⟨rfl, hrole⟩
  · exact .inl hx

/-- A transaction that enlists a staker. -/
theorem enlist (he : Enlists b c stx pending)
    (hlacks : c.current.Lacks stx.id ∧ c.pending.Lacks stx.id) :
    ({ c with pending } : Chain).Periods := by
  cases he with
  | validator tx htx hstake hmin hmax hstart hperiod hfree =>
    exact h.putValidator hfree (.inl ⟨rfl, rfl⟩) ⟨rfl, hstart, hperiod⟩ hlacks
      fun hne => absurd rfl hne
  | subnetValidator tx v htx hsubnet hstart hperiod hfree hv hinside =>
    exact h.putValidator hfree (.inr ⟨hsubnet, rfl⟩) ⟨rfl, hstart, hperiod⟩ hlacks
      fun _ => ⟨v, hv, hinside⟩
  | delegator tx v limit htx hstake hstart hperiod hv hlimit hcan =>
    obtain ⟨hinside, -⟩ := canDelegate_eq_true hcan
    exact h.putDelegator ⟨rfl, rfl⟩ ⟨rfl, hstart, hperiod⟩ hlacks ⟨v, hv, hinside⟩

end

/-! ## Advancing the time -/

section Advance

variable {t : Time} {moved : List Staker} {supply : Nat}

section

variable (h : c.Periods) {x : Staker}

include h

/-- A staker that moves starts at the new time, and its version in the current set has a
    priority by its role. -/
theorem moved_from (hchange : ∃ t', getNextStakerChangeTime c = some t' ∧ t ≤ t')
    (hm : Moves c t moved supply current pending) (hx : x ∈ moved) :
    ∃ s ∈ c.pending.stakers, s.startTime = t ∧ Becomes s x := by
  obtain ⟨s, hs, hbecomes⟩ := hm.becomes.exists_left hx
  obtain ⟨hmem, hle⟩ := h.mem_movedStakers.mp hs
  obtain ⟨t', ht', hle'⟩ := hchange
  have hnext := (h.le_nextTime ht').2 s hmem
  rw [(h.pending_times s hmem).1] at hnext
  exact ⟨s, hmem, le_antisymm hle (hle'.trans hnext), hbecomes⟩

/-- The role of a staker in the pending set decides about its priority in the current one. -/
theorem moved_role (hs : s ∈ c.pending.stakers) (hx : Becomes s x) :
    c.pending.IsValidator s ∧
        (s.subnetID = primaryNetworkID ∧ x.priority = primaryNetworkValidatorCurrentPriority ∨
          s.subnetID ≠ primaryNetworkID ∧ x.priority = subnetValidatorCurrentPriority) ∨
      c.pending.IsDelegator s ∧ s.subnetID = primaryNetworkID ∧
        x.priority = primaryNetworkDelegatorCurrentPriority := by
  have hprio := hx.priority
  rcases h.pending.mem_stakers.mp hs with hval | hdel
  · refine .inl ⟨hval, ?_⟩
    rcases h.pending_validator s hval with ⟨hprimary, hp⟩ | ⟨hsubnet, hp⟩
    · rw [hp] at hprio
      exact .inl ⟨hprimary, hprio⟩
    rw [hp] at hprio
    exact .inr ⟨hsubnet, hprio⟩
  obtain ⟨hprimary, hp⟩ := h.pending_delegator s hdel
  rw [hp] at hprio
  exact .inr ⟨hdel, hprimary, hprio⟩

section

variable (hchange : ∃ t', getNextStakerChangeTime c = some t' ∧ t ≤ t')
  (hm : Moves c t moved supply current pending)

include hchange hm

/-- The validators of the new current set: those that moved, and those that stay. -/
theorem advance_validator (hx : current.IsValidator x) :
    (∃ s, c.pending.IsValidator s ∧ s.startTime = t ∧ Becomes s x ∧
      (s.subnetID = primaryNetworkID ∧ x.priority = primaryNetworkValidatorCurrentPriority ∨
        s.subnetID ≠ primaryNetworkID ∧ x.priority = subnetValidatorCurrentPriority)) ∨
      c.current.IsValidator x ∧ (x.subnetID ≠ primaryNetworkID → t < x.endTime) := by
  rcases (hm.current_validator x).mp hx with ⟨hmoved, hprio⟩ | ⟨hval, hremain⟩
  · obtain ⟨s, hs, hstart, hbecomes⟩ := h.moved_from hchange hm hmoved
    rcases h.moved_role hs hbecomes with ⟨hval, hrole⟩ | ⟨-, -, hdel⟩
    · exact .inl ⟨s, hval, hstart, hbecomes, hrole⟩
    · exact absurd hdel hprio
  refine .inr ⟨hval, fun hsubnet => ?_⟩
  obtain ⟨t', ht', hle⟩ := hchange
  rw [h.mem_removedStakers fun s hs => hle.trans ((h.le_nextTime ht').1 s hs)] at hremain
  exact not_le.mp fun hend => hremain ⟨hval, hsubnet, hend⟩

/-- The delegators of the new current set. -/
theorem advance_delegator (hx : current.IsDelegator x) :
    (∃ s, c.pending.IsDelegator s ∧ s.startTime = t ∧ Becomes s x ∧
      s.subnetID = primaryNetworkID ∧ x.priority = primaryNetworkDelegatorCurrentPriority) ∨
      c.current.IsDelegator x := by
  rcases (hm.current_delegator x).mp hx with ⟨hmoved, hprio⟩ | hdel
  · obtain ⟨s, hs, hstart, hbecomes⟩ := h.moved_from hchange hm hmoved
    rcases h.moved_role hs hbecomes with ⟨-, ⟨-, hp⟩ | ⟨-, hp⟩⟩ | ⟨hdel, hprimary, hp⟩
    · rw [hp] at hprio
      exact absurd hprio (by decide)
    · rw [hp] at hprio
      exact absurd hprio (by decide)
    · exact .inl ⟨s, hdel, hstart, hbecomes, hprimary, hp⟩
  · exact .inr hdel

/-- A primary network validator that has started is a current one after the advance. -/
theorem advance_primary
    (hv : c.getValidator primaryNetworkID nodeID = some v) (hstart : v.startTime ≤ t) :
    ∃ w, current.validator (primaryNetworkID, nodeID) = some w ∧ v.Same w := by
  rcases getValidator_eq_some hv with hv | hv
  · obtain ⟨hval, hslot⟩ := h.current.validator_eq_some.mp hv
    have hprimary : v.subnetID = primaryNetworkID := congrArg Prod.fst hslot
    obtain ⟨t', ht', hle⟩ := hchange
    have hremain : v ∉ currentValidatorsToRemove c t := by
      rw [h.mem_removedStakers fun s hs => hle.trans ((h.le_nextTime ht').1 s hs)]
      exact fun hmem => hmem.2.1 hprimary
    exact ⟨v, hm.current_coherent.validator_eq_some.mpr
      ⟨(hm.current_validator v).mpr (.inr ⟨hval, hremain⟩), hslot⟩, .refl v⟩
  obtain ⟨hval, hslot⟩ := h.pending.validator_eq_some.mp hv
  obtain ⟨w, hw, hbecomes⟩ := hm.becomes.flip.exists_left
    (h.mem_movedStakers.mpr ⟨h.pending.mem_stakers.mpr (.inl hval), hstart⟩)
  have hprio : w.priority ≠ primaryNetworkDelegatorCurrentPriority := by
    rcases h.pending_validator v hval with ⟨-, hp⟩ | ⟨-, hp⟩
    · rw [hbecomes.priority, hp]
      decide
    rw [hbecomes.priority, hp]
    decide
  exact ⟨w, hm.current_coherent.validator_eq_some.mpr
    ⟨(hm.current_validator w).mpr (.inl ⟨hw, hprio⟩), hbecomes.same.slot.trans hslot⟩,
    hbecomes.same⟩

/-- A node is still at most once a validator of a subnet. -/
theorem advance_one_validator {x y : Staker} (hx : current.IsValidator x)
    (hy : pending.IsValidator y) : x.slot ≠ y.slot := by
  obtain ⟨hy, hlater⟩ := (hm.pending_validator y).mp hy
  rcases h.advance_validator hchange hm hx with ⟨s, hs, hstart, hbecomes, -⟩ | ⟨hx, -⟩
  · intro hslot
    rw [hbecomes.same.slot] at hslot
    have heq : some s = some y := by
      rw [← show c.pending.validator s.slot = some s from hs, hslot]
      exact hy
    cases heq
    exact absurd hstart (ne_of_gt hlater)
  · exact h.one_validator x y hx hy

end

section

variable (hafter : c.timestamp < t) (hchange : ∃ t', getNextStakerChangeTime c = some t' ∧ t ≤ t')
  (hm : Moves c t moved supply current pending)

include hafter hchange hm

/-- The validator of a node is found after the advance. -/
theorem advance_getValidator (hv : c.getValidator primaryNetworkID nodeID = some v) :
    ∃ w, ({ c with timestamp := t, current, pending } : Chain).getValidator primaryNetworkID nodeID =
      some w ∧ v.Same w := by
  by_cases hstart : v.startTime ≤ t
  · obtain ⟨w, hw, hsame⟩ := h.advance_primary hchange hm hv hstart
    refine ⟨w, ?_, hsame⟩
    rw [getValidator]
    rw [hw]
  rcases getValidator_eq_some hv with hv | hv
  · have hmem := h.current.mem_of_validator hv
    exact absurd ((h.current_times v hmem).2.1.trans (le_of_lt hafter)) hstart
  obtain ⟨hval, hslot⟩ := h.pending.validator_eq_some.mp hv
  have hval' : pending.IsValidator v := (hm.pending_validator v).mpr ⟨hval, not_le.mp hstart⟩
  have hnone : current.validator (primaryNetworkID, nodeID) = none :=
    hm.current_coherent.validator_eq_none.mpr fun x hx hk =>
      h.advance_one_validator hchange hm hx hval' (hk.trans hslot.symm)
  refine ⟨v, ?_, .refl v⟩
  rw [getValidator]
  rw [hnone]
  exact hm.pending_coherent.validator_eq_some.mpr ⟨hval', hslot⟩

/-- An advance of the time. -/
theorem advance : ({ c with timestamp := t, current, pending } : Chain).Periods := by
  have hnext : ∀ s ∈ c.current.stakers, t ≤ s.nextTime := by
    obtain ⟨t', ht', hle⟩ := hchange
    exact fun s hs => hle.trans ((h.le_nextTime ht').1 s hs)
  have hpending : ∀ x ∈ pending.stakers, x ∈ c.pending.stakers ∧ t < x.startTime := by
    intro x hx
    have hnew := hm.pending_coherent.mem_stakers (s := x)
    have hold := h.pending.mem_stakers (s := x)
    grind [hm.pending_validator, hm.pending_delegator]
  have hcurrent : ∀ x ∈ current.stakers, x ∈ c.current.stakers ∨
      ∃ s ∈ c.pending.stakers, s.startTime = t ∧ Becomes s x := by
    intro x hx
    rcases hm.current_coherent.mem_stakers.mp hx with hx | hx
    · rcases h.advance_validator hchange hm hx with ⟨s, hs, hstart, hbecomes, -⟩ | ⟨hx, -⟩
      · exact .inr ⟨s, h.pending.mem_stakers.mpr (.inl hs), hstart, hbecomes⟩
      · exact .inl (h.current.mem_stakers.mpr (.inl hx))
    rcases h.advance_delegator hchange hm hx with ⟨s, hs, hstart, hbecomes, -⟩ | hx
    · exact .inr ⟨s, h.pending.mem_stakers.mpr (.inr hs), hstart, hbecomes⟩
    · exact .inl (h.current.mem_stakers.mpr (.inr hx))
  -- what moves lies inside a validator that has started, so that one is current
  have hnew : ∀ s x, c.pending.Depends s → s.startTime = t → Becomes s x →
      ∃ v, current.validator (primaryNetworkID, x.nodeID) = some v ∧ x.Inside v := by
    intro s x hs hstart hbecomes
    obtain ⟨v, hv, hin⟩ := h.pending_inside s hs
    obtain ⟨w, hw, hsame⟩ := h.advance_primary hchange hm hv (hstart ▸ hin.1)
    rw [hbecomes.same.nodeID]
    exact ⟨w, hw, hbecomes.same.inside hsame hin⟩
  have hold : ∀ x, c.current.Depends x →
      ∃ v, current.validator (primaryNetworkID, x.nodeID) = some v ∧ x.Inside v := by
    intro x hx
    obtain ⟨v, hv, hin⟩ := h.current_inside x hx
    have hget : c.getValidator primaryNetworkID x.nodeID = some v := by rw [getValidator, hv]
    have hle := (h.current_times v (h.current.mem_of_validator hv)).2.1
    obtain ⟨w, hw, hsame⟩ := h.advance_primary hchange hm hget (hle.trans (le_of_lt hafter))
    exact ⟨w, hw, (Staker.Same.refl x).inside hsame hin⟩
  exact
    { current := hm.current_coherent
      pending := hm.pending_coherent
      current_times := by
        intro x hx
        rcases hcurrent x hx with hx | ⟨s, hs, hstart, hbecomes⟩
        · grind [h.current_times]
        have hperiod := (h.pending_times s hs).2.2
        rw [hbecomes.nextTime, hbecomes.same.startTime, hbecomes.same.endTime]
        exact ⟨rfl, le_of_eq hstart, hstart ▸ le_of_lt hperiod⟩
      pending_times := by grind [h.pending_times]
      current_validator := by
        intro x hx
        rcases h.advance_validator hchange hm hx with ⟨s, hs, hstart, hbecomes, hrole⟩ | ⟨hx, hlater⟩
        · have hperiod := (h.pending_times s (h.pending.mem_stakers.mpr (.inl hs))).2.2
          grind [hbecomes.same.subnetID, hbecomes.same.endTime]
        · grind [h.current_validator]
      current_delegator := by
        intro x hx
        rcases h.advance_delegator hchange hm hx with ⟨s, -, -, hbecomes, hprimary, hprio⟩ | hx
        · exact ⟨hbecomes.same.subnetID.trans hprimary, hprio⟩
        · exact h.current_delegator x hx
      pending_validator := by grind [h.pending_validator, hm.pending_validator]
      pending_delegator := by grind [h.pending_delegator, hm.pending_delegator]
      one_validator := fun x y hx hy => h.advance_one_validator hchange hm hx hy
      different_txs := by
        intro x hx y hy heq
        obtain ⟨hy, hlater⟩ := hpending y hy
        rcases hcurrent x hx with hx | ⟨s, hs, hstart, hbecomes⟩
        · exact h.different_txs x hx y hy heq
        obtain rfl := h.pending.txID_inj hs hy (hbecomes.same.txID.symm.trans heq)
        exact absurd hstart (ne_of_gt hlater)
      current_inside := by
        rintro x (hx | ⟨hx, hsubnet⟩)
        · rcases h.advance_delegator hchange hm hx with ⟨s, hs, hstart, hbecomes, -⟩ | hx
          · exact hnew s x (.inl hs) hstart hbecomes
          · exact hold x (.inl hx)
        · rcases h.advance_validator hchange hm hx with ⟨s, hs, hstart, hbecomes, -⟩ | ⟨hx, -⟩
          · rw [hbecomes.same.subnetID] at hsubnet
            exact hnew s x (.inr ⟨hs, hsubnet⟩) hstart hbecomes
          · exact hold x (.inr ⟨hx, hsubnet⟩)
      pending_inside := by
        intro x hx
        obtain ⟨v, hv, hin⟩ := h.pending_inside x (by
          grind [Stakers.Depends, hm.pending_validator, hm.pending_delegator])
        obtain ⟨w, hw, hsame⟩ := h.advance_getValidator hafter hchange hm hv
        exact ⟨w, hw, (Staker.Same.refl x).inside hsame hin⟩ }

end

end

end Advance

/-! ## Retiring -/

/-- Stakers leave the current set, but no validator that something depends on. -/
theorem removeCurrent (h : c.Periods) (hcoh : current.Coherent)
    (hval : ∀ x, current.IsValidator x → c.current.IsValidator x)
    (hdel : ∀ x, current.IsDelegator x → c.current.IsDelegator x)
    (hkept : ∀ x v, current.Depends x ∨ c.pending.Depends x → x.Inside v →
      c.current.validator (primaryNetworkID, x.nodeID) = some v →
      current.validator (primaryNetworkID, x.nodeID) = some v) :
    ({ c with current } : Chain).Periods := by
  have hmem : ∀ x ∈ current.stakers, x ∈ c.current.stakers := by
    intro x hx
    have hnew := hcoh.mem_stakers (s := x)
    have hold := h.current.mem_stakers (s := x)
    grind
  have hnone : ∀ k, c.current.validator k = none → current.validator k = none := by
    grind [hcoh.validator_eq_none, h.current.validator_eq_none]
  exact
    { h with
      current := hcoh
      current_times := by grind [h.current_times]
      current_validator := by grind [h.current_validator]
      current_delegator := by grind [h.current_delegator]
      one_validator := by grind [h.one_validator]
      different_txs := by grind [h.different_txs]
      current_inside := by
        intro x hx
        obtain ⟨v, hv, hin⟩ := h.current_inside x (hx.imp (hdel x) fun hx => ⟨hval x hx.1, hx.2⟩)
        exact ⟨v, hkept x v (.inl hx) hin hv, hin⟩
      pending_inside := by
        intro x hx
        obtain ⟨v, hv, hin⟩ := h.pending_inside x hx
        grind [getValidator] }

/-- The first current staker leaves at its end. If it is a primary network validator,
    everything inside its period has left before. -/
theorem not_depends_first (h : c.Periods) {rest : List Staker}
    (hfirst : c.current.stakers = s :: rest) (hend : s.endTime = c.timestamp)
    (hprio : s.priority = primaryNetworkValidatorCurrentPriority)
    (hx : c.current.Depends x ∨ c.pending.Depends x) : ¬x.Inside s := by
  intro hin
  have hxend : x.endTime ≤ c.timestamp := hend ▸ hin.2
  rcases hx with hx | hx
  · have hmem : x ∈ c.current.stakers :=
      h.current.mem_stakers.mpr (hx.elim .inr fun hx => .inl hx.1)
    obtain ⟨hnext, -, hle⟩ := h.current_times x hmem
    rcases hx with hx | ⟨hx, hsubnet⟩
    · -- a delegator that ends now comes before the validator
      have hxprio := (h.current_delegator x hx).2
      have hascending := h.current.ascending
      rw [hfirst] at hmem hascending
      rcases List.mem_cons.mp hmem with rfl | hmem
      · rw [hprio] at hxprio
        exact absurd hxprio (by decide)
      have hsnext := (h.current_times s (by rw [hfirst]; exact List.mem_cons_self)).1
      rcases Staker.nextTime_le_of_less ((List.pairwise_cons.mp hascending).1 x hmem) with
        hlt | ⟨-, hle'⟩
      · rw [hnext, hsnext, hend] at hlt
        exact absurd hxend (not_le.mpr hlt)
      · rw [hprio, hxprio] at hle'
        exact absurd hle' (by decide)
    · rcases h.current_validator x hx with ⟨hprimary, -⟩ | ⟨-, -, hlater⟩
      · exact hsubnet hprimary
      · exact absurd hxend (not_le.mpr hlater)
  · have hmem : x ∈ c.pending.stakers :=
      h.pending.mem_stakers.mpr (hx.elim .inr fun hx => .inl hx.1)
    obtain ⟨-, hstart, hperiod⟩ := h.pending_times x hmem
    exact absurd hxend (not_le.mpr (hstart.trans hperiod))

/-- A primary network validator leaves the current set. -/
theorem retireValidator (h : c.Periods) (hs : c.current.IsValidator s)
    (hprimary : s.subnetID = primaryNetworkID) {rest : List Staker}
    (hfirst : c.current.stakers = s :: rest) (hend : s.endTime = c.timestamp) :
    ({ c with current := c.current.deleteValidator s } : Chain).Periods := by
  have hprio : s.priority = primaryNetworkValidatorCurrentPriority := by
    rcases h.current_validator s hs with ⟨-, hprio⟩ | ⟨hsubnet, -⟩
    · exact hprio
    · exact absurd hprimary hsubnet
  have hval := fun x => Stakers.Coherent.isValidator_deleteValidator (x := x) hs
  have hcoh := h.current.deleteValidator hs
  refine h.removeCurrent hcoh (fun x hx => ((hval x).mp hx).1) (fun x hx => hx)
    fun x v hx hin hv => ?_
  obtain ⟨hval', hslot⟩ := h.current.validator_eq_some.mp hv
  refine hcoh.validator_eq_some.mpr ⟨(hval v).mpr ⟨hval', ?_⟩, hslot⟩
  rintro rfl
  refine h.not_depends_first hfirst hend hprio (hx.imp_left ?_) hin
  exact Or.imp_right fun hx => ⟨((hval x).mp hx.1).1, hx.2⟩

end Chain.Periods

end SavannahNode.PlatformVM
