import SavannahNode.Native.TxExecutor
import SavannahNode.Spec.StateDiff

/-!
# The periods of stakers

The invariant of the P-chain's staker sets: pending stakers start in the future, current ones
have started and not ended, and everything that is staked on a node lies inside the period of
the node's primary network validator. The proofs about single transactions are in
`Spec.LedgerExec` and `Spec.LedgerAdvance`.

## Key results

* `Chain.Periods` — the invariant.
* `Chain.Periods.mem_movedStakers`, `Chain.Periods.mem_removedStakers` — the stakers that an
  advance of the time moves and removes.
-/

namespace SavannahNode

namespace Staker

/-- An ordered pair of stakers, by time and then by priority. -/
theorem nextTime_le_of_less {s t : Staker} (h : s.less t = true) :
    s.nextTime < t.nextTime ∨ s.nextTime = t.nextTime ∧ s.priority ≤ t.priority := by
  rw [less, OrderedList.lexicographic_iff, OrderedList.lexicographic_iff] at h
  rcases h with hlt | ⟨heq, hlt | ⟨hprio, -⟩⟩
  · exact .inl hlt
  · exact .inr ⟨heq, Nat.le_of_lt hlt⟩
  · exact .inr ⟨heq, Nat.le_of_eq hprio⟩

end Staker

variable {s : Staker}

theorem Ascending.head_le {l : List Staker} (h : Ascending (s :: l)) {t : Staker}
    (ht : t ∈ s :: l) : s.nextTime ≤ t.nextTime := by
  rcases List.mem_cons.mp ht with rfl | ht
  · exact le_rfl
  rcases Staker.nextTime_le_of_less ((List.pairwise_cons.mp h).1 t ht) with hlt | ⟨heq, -⟩
  · exact le_of_lt hlt
  · exact le_of_eq heq

/-- A staker that needs the primary network validator of its node. -/
def Stakers.Depends (v : Stakers) (s : Staker) : Prop :=
  v.IsDelegator s ∨ v.IsValidator s ∧ s.subnetID ≠ primaryNetworkID

/-- The period of the staker lies inside the period of the validator. -/
def Staker.Inside (s v : Staker) : Prop := v.startTime ≤ s.startTime ∧ s.endTime ≤ v.endTime

/-- The staker has the transaction, node, subnet, weight and period of the other. -/
structure Staker.Same (s x : Staker) : Prop where
  txID : x.txID = s.txID
  nodeID : x.nodeID = s.nodeID
  subnetID : x.subnetID = s.subnetID
  weight : x.weight = s.weight
  startTime : x.startTime = s.startTime
  endTime : x.endTime = s.endTime

namespace Staker.Same

variable {s x v w : Staker}

theorem refl (s : Staker) : s.Same s := ⟨rfl, rfl, rfl, rfl, rfl, rfl⟩

theorem slot (h : s.Same x) : x.slot = s.slot := by rw [Staker.slot, Staker.slot, h.subnetID, h.nodeID]

theorem inside (h : s.Same x) (hv : v.Same w) (hin : s.Inside v) : x.Inside w := by
  rw [Inside, h.startTime, h.endTime, hv.startTime, hv.endTime]
  exact hin

end Staker.Same

namespace PlatformVM.Chain

/-- The invariant of the staker sets. -/
structure Periods (c : Chain) : Prop where
  current : c.current.Coherent
  pending : c.pending.Coherent
  current_times : ∀ s ∈ c.current.stakers,
    s.nextTime = s.endTime ∧ s.startTime ≤ c.timestamp ∧ c.timestamp ≤ s.endTime
  pending_times : ∀ s ∈ c.pending.stakers,
    s.nextTime = s.startTime ∧ c.timestamp < s.startTime ∧ s.startTime < s.endTime
  current_validator : ∀ s, c.current.IsValidator s →
    s.subnetID = primaryNetworkID ∧ s.priority = primaryNetworkValidatorCurrentPriority ∨
      s.subnetID ≠ primaryNetworkID ∧ s.priority = subnetValidatorCurrentPriority ∧
        c.timestamp < s.endTime
  current_delegator : ∀ s, c.current.IsDelegator s →
    s.subnetID = primaryNetworkID ∧ s.priority = primaryNetworkDelegatorCurrentPriority
  pending_validator : ∀ s, c.pending.IsValidator s →
    s.subnetID = primaryNetworkID ∧ s.priority = primaryNetworkValidatorPendingPriority ∨
      s.subnetID ≠ primaryNetworkID ∧ s.priority = subnetValidatorPendingPriority
  pending_delegator : ∀ s, c.pending.IsDelegator s →
    s.subnetID = primaryNetworkID ∧ s.priority = primaryNetworkDelegatorPendingPriority
  /-- A node is at most once a validator of a subnet. -/
  one_validator : ∀ s t, c.current.IsValidator s → c.pending.IsValidator t → s.slot ≠ t.slot
  different_txs : ∀ s ∈ c.current.stakers, ∀ t ∈ c.pending.stakers, s.txID ≠ t.txID
  current_inside : ∀ s, c.current.Depends s →
    ∃ v, c.current.validator (primaryNetworkID, s.nodeID) = some v ∧ s.Inside v
  pending_inside : ∀ s, c.pending.Depends s →
    ∃ v, c.getValidator primaryNetworkID s.nodeID = some v ∧ s.Inside v

variable {c : Chain}

theorem getValidator_eq_some {subnetID : ID} {nodeID : NodeID} {v : Staker}
    (h : c.getValidator subnetID nodeID = some v) :
    c.current.validator (subnetID, nodeID) = some v ∨ c.pending.validator (subnetID, nodeID) = some v := by
  rw [getValidator] at h
  split at h
  · cases h
    exact .inl ‹_›
  · exact .inr h

theorem getValidator_eq_none {subnetID : ID} {nodeID : NodeID}
    (h : ¬(c.getValidator subnetID nodeID).isSome = true) :
    c.current.validator (subnetID, nodeID) = none ∧ c.pending.validator (subnetID, nodeID) = none := by
  rw [getValidator] at h
  split at h
  · exact absurd rfl h
  rename_i hcurrent
  exact ⟨hcurrent, Option.not_isSome_iff_eq_none.mp h⟩

namespace Periods

/-- What is staked on a node and not yet over lies inside the period of its validator, and
    conversely the validator is found where it is. -/
theorem getValidator_eq (h : c.Periods) {v : Staker}
    (hv : c.current.IsValidator v ∨ c.pending.IsValidator v) :
    c.getValidator v.subnetID v.nodeID = some v := by
  rw [getValidator]
  rcases hv with hv | hv
  · rw [show c.current.validator (v.subnetID, v.nodeID) = some v from hv]
  have hnone : c.current.validator (v.subnetID, v.nodeID) = none :=
    h.current.validator_eq_none.mpr fun t ht hk => h.one_validator t v ht hv hk
  rw [hnone]
  exact hv

/-! ## Advancing the time -/

/-- The next change of the staker sets is not after any staker leaves its set. -/
theorem le_nextTime (h : c.Periods) {t : Time} (ht : getNextStakerChangeTime c = some t) :
    (∀ s ∈ c.current.stakers, t ≤ s.nextTime) ∧ ∀ s ∈ c.pending.stakers, t ≤ s.nextTime := by
  have hcurrent := h.current.ascending
  have hpending := h.pending.ascending
  rw [getNextStakerChangeTime] at ht
  split at ht
  · rename_i s l u m hs hu
    rw [hs] at hcurrent ⊢
    rw [hu] at hpending ⊢
    have hle : t ≤ s.nextTime ∧ t ≤ u.nextTime := by
      cases ht
      split
      · exact ⟨le_rfl, le_of_lt ‹_›⟩
      · exact ⟨not_lt.mp ‹_›, le_rfl⟩
    exact ⟨fun x hx => hle.1.trans (hcurrent.head_le hx), fun x hx => hle.2.trans (hpending.head_le hx)⟩
  · rename_i s l hs hu
    rw [hs] at hcurrent ⊢
    rw [hu]
    cases ht
    exact ⟨fun x hx => hcurrent.head_le hx, fun x hx => absurd hx List.not_mem_nil⟩
  · rename_i u m hs hu
    rw [hs]
    rw [hu] at hpending ⊢
    cases ht
    exact ⟨fun x hx => absurd hx List.not_mem_nil, fun x hx => hpending.head_le hx⟩
  · cases ht

/-- The pending stakers that start at or before a time. -/
theorem mem_movedStakers (h : c.Periods) {t : Time} :
    s ∈ c.pending.stakers.takeWhile (fun s => ¬s.startTime > t) ↔
      s ∈ c.pending.stakers ∧ s.startTime ≤ t := by
  rw [OrderedList.mem_takeWhile]
  · simp
  refine h.pending.ascending.imp_of_mem fun {a b} ha hb hless hp => ?_
  have hle : a.nextTime ≤ b.nextTime := by
    rcases Staker.nextTime_le_of_less hless with hlt | ⟨heq, -⟩
    · exact le_of_lt hlt
    · exact le_of_eq heq
  rw [(h.pending_times a ha).1, (h.pending_times b hb).1] at hle
  simp only [decide_eq_true_eq, not_lt, gt_iff_lt] at hp ⊢
  exact hle.trans hp

/-- The priority of a current staker. -/
theorem current_priority (h : c.Periods) (hs : s ∈ c.current.stakers) :
    s.priority = subnetValidatorCurrentPriority ∧ s.subnetID ≠ primaryNetworkID ∧
        c.current.IsValidator s ∨
      s.subnetID = primaryNetworkID ∧ (s.priority = primaryNetworkDelegatorCurrentPriority ∨
        s.priority = primaryNetworkValidatorCurrentPriority) := by
  rcases h.current.mem_stakers.mp hs with hv | hd
  · rcases h.current_validator s hv with ⟨hprimary, hp⟩ | ⟨hsubnet, hp, -⟩
    · exact .inr ⟨hprimary, .inr hp⟩
    · exact .inl ⟨hp, hsubnet, hv⟩
  obtain ⟨hprimary, hp⟩ := h.current_delegator s hd
  exact .inr ⟨hprimary, .inl hp⟩

/-- The current stakers that leave by the time alone: the subnet validators that end. The
    time is at most the next change, so stakers that end are the first ones, and among those
    the subnet validators come before stakers of the primary network. -/
theorem mem_removedStakers (h : c.Periods) {t : Time} (ht : ∀ s ∈ c.current.stakers, t ≤ s.nextTime) :
    s ∈ currentValidatorsToRemove c t ↔
      c.current.IsValidator s ∧ s.subnetID ≠ primaryNetworkID ∧ s.endTime ≤ t := by
  rw [currentValidatorsToRemove, OrderedList.mem_takeWhile]
  · simp only [decide_eq_true_eq, not_lt, gt_iff_lt]
    constructor
    · rintro ⟨hs, hend, hd, hv⟩
      rcases h.current_priority hs with ⟨-, hsubnet, hval⟩ | ⟨-, hp | hp⟩
      · exact ⟨hval, hsubnet, hend⟩
      · exact absurd hp hd
      · exact absurd hp hv
    rintro ⟨hval, hsubnet, hend⟩
    refine ⟨h.current.mem_stakers.mpr (.inl hval), hend, ?_⟩
    rcases h.current_validator s hval with ⟨hprimary, -⟩ | ⟨-, hp, -⟩
    · exact absurd hprimary hsubnet
    rw [hp]
    decide
  · refine h.current.ascending.imp_of_mem fun {a b} ha hb hless hp => ?_
    simp only [decide_eq_true_eq, not_lt, gt_iff_lt] at hp ⊢
    obtain ⟨hend, hbd, hbv⟩ := hp
    have hta := ht a ha
    have ha' := (h.current_times a ha).1
    have hb' := (h.current_times b hb).1
    rcases Staker.nextTime_le_of_less hless with hlt | ⟨heq, hle⟩
    · rw [← hb'] at hend
      exact absurd (hta.trans_lt hlt) (not_lt.mpr hend)
    refine ⟨?_, ?_⟩
    · rw [← ha', heq, hb']
      exact hend
    have hbp : b.priority = subnetValidatorCurrentPriority := by
      rcases h.current_priority hb with ⟨hp, -⟩ | ⟨-, hp | hp⟩
      · exact hp
      · exact absurd hp hbd
      · exact absurd hp hbv
    rw [hbp] at hle
    constructor
    · rintro hap
      rw [hap] at hle
      exact absurd hle (by decide)
    rintro hap
    rw [hap] at hle
    exact absurd hle (by decide)

end Periods

end PlatformVM.Chain

end SavannahNode
