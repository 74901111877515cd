import SavannahNode.Spec.LedgerExec

/-!
# Advancing the time is a step of the ledger

`AdvanceTimeTx` collects the stakers that move in four lists and then changes the two staker
sets list by list. The result is the one that `Ledger.Moves` describes by its members.

## Key results

* `movePendings` — the four lists, from the pending stakers that have started.
* `advanceTimeTx_step` — the executor on the state of a valid ledger.
-/

namespace SavannahNode.PlatformVM

open DiffStakers Except Ledger List

/-! ## Collecting the stakers that move -/

/-- One staker becomes current, with its priority. -/
theorem becomes_toCurrent {s : Staker} {r : Nat} (hr : r < 2 ^ 64)
    (hsubnet : s.subnetID ≠ primaryNetworkID → r = 0) :
    Becomes s { s.toCurrent with potentialReward := r } :=
  ⟨rfl, hr, hsubnet⟩

theorem RewardConfig.calculate_lt (c : RewardConfig) (d : Duration) (amount supply : Nat) :
    c.calculate d amount supply < 2 ^ 64 :=
  Nat.mod_lt _ (by decide)

/-- The lists of `AdvanceTimeTx`, by the pending stakers and their current versions. -/
structure Collected (m m' : Moved) (l moved : List Staker) : Prop where
  becomes : List.Forall₂ Becomes l moved
  supply : m'.currentSupply = m.currentSupply + (moved.map (·.potentialReward)).sum
  currentValidators : m'.currentValidatorsToAdd = m.currentValidatorsToAdd ++
    moved.filter (·.priority ≠ primaryNetworkDelegatorCurrentPriority)
  pendingValidators : m'.pendingValidatorsToRemove = m.pendingValidatorsToRemove ++
    l.filter (·.priority ≠ primaryNetworkDelegatorPendingPriority)
  currentDelegators : m'.currentDelegatorsToAdd = m.currentDelegatorsToAdd ++
    moved.filter (·.priority = primaryNetworkDelegatorCurrentPriority)
  pendingDelegators : m'.pendingDelegatorsToRemove = m.pendingDelegatorsToRemove ++
    l.filter (·.priority = primaryNetworkDelegatorPendingPriority)

/-- One pending staker. A subnet validator has the priority that brings no reward. -/
theorem movePending_ok {rewards : RewardConfig} {m m' : Moved} {s : Staker}
    (hzero : s.potentialReward = 0)
    (hsubnet : s.subnetID ≠ primaryNetworkID → s.priority = subnetValidatorPendingPriority)
    (h : movePending rewards m s = .ok m') : ∃ n, Collected m m' [s] [n] := by
  have hreward := rewards.calculate_lt (Time.sub s.endTime s.startTime) s.weight m.currentSupply
  rw [movePending] at h
  generalize rewards.calculate (Time.sub s.endTime s.startTime) s.weight m.currentSupply = r
    at h hreward
  split at h
  · rename_i hprio
    obtain ⟨supply, hsupply, h⟩ := bind_eq_ok.mp h
    cases h
    have hprio' : s.toCurrent.priority = primaryNetworkDelegatorCurrentPriority := by
      rw [Staker.toCurrent, hprio]
      rfl
    refine ⟨{ s.toCurrent with potentialReward := _ }, .cons (becomes_toCurrent hreward ?_) .nil,
      ?_, ?_, ?_, ?_, ?_⟩
    · intro hne
      rw [hsubnet hne] at hprio
      exact absurd hprio (by decide)
    · rw [map_singleton, sum_singleton]
      exact add64_eq_some (ofOption_eq_ok.mp hsupply)
    · simp [hprio']
    · simp [hprio]
    · simp [hprio']
    · simp [hprio]
  · rename_i hdel
    split at h
    · rename_i hprio
      obtain ⟨supply, hsupply, h⟩ := bind_eq_ok.mp h
      cases h
      have hvalidator : s.toCurrent.priority = primaryNetworkValidatorCurrentPriority := by
        rw [Staker.toCurrent, hprio]
        rfl
      have hprio' : s.toCurrent.priority ≠ primaryNetworkDelegatorCurrentPriority := by
        rw [hvalidator]
        decide
      refine ⟨{ s.toCurrent with potentialReward := _ }, .cons (becomes_toCurrent hreward ?_) .nil,
        ?_, ?_, ?_, ?_, ?_⟩
      · intro hne
        rw [hsubnet hne] at hprio
        exact absurd hprio (by decide)
      · rw [map_singleton, sum_singleton]
        exact add64_eq_some (ofOption_eq_ok.mp hsupply)
      · simp [hprio']
      · simp [hdel]
      · simp [hprio']
      · simp [hdel]
    · split at h
      · rename_i hprio
        cases h
        have hvalidator : s.toCurrent.priority = subnetValidatorCurrentPriority := by
          rw [Staker.toCurrent, hprio]
          rfl
        have hprio' : s.toCurrent.priority ≠ primaryNetworkDelegatorCurrentPriority := by
          rw [hvalidator]
          decide
        have hzero' : s.toCurrent.potentialReward = 0 := hzero
        refine ⟨s.toCurrent, .cons ⟨rfl, by rw [hzero']; exact Nat.two_pow_pos 64, fun _ => hzero'⟩ .nil,
          ?_, ?_, ?_, ?_, ?_⟩
        · simp [hzero']
        · simp [hprio']
        · simp [hdel]
        · simp [hprio']
        · simp [hdel]
      · cases h

/-- All pending stakers that have started. -/
theorem movePendings {rewards : RewardConfig} {m m' : Moved} {l : List Staker}
    (hzero : ∀ s ∈ l, s.potentialReward = 0)
    (hsubnet : ∀ s ∈ l, s.subnetID ≠ primaryNetworkID → s.priority = subnetValidatorPendingPriority)
    (h : l.foldlM (movePending rewards) m = .ok m') : ∃ moved, Collected m m' l moved := by
  induction l generalizing m with
  | nil =>
    cases h
    exact ⟨[], .nil, rfl, by simp, by simp, by simp, by simp⟩
  | cons s l ih =>
    obtain ⟨m1, h1, h⟩ := bind_eq_ok.mp h
    obtain ⟨n, hone⟩ := movePending_ok (hzero s mem_cons_self) (hsubnet s mem_cons_self) h1
    obtain ⟨moved, hrest⟩ := ih (fun s hs => hzero s (mem_cons_of_mem _ hs))
      (fun s hs => hsubnet s (mem_cons_of_mem _ hs)) h
    refine ⟨n :: moved, .cons ((forall₂_cons.mp hone.becomes).1) hrest.becomes, ?_, ?_, ?_, ?_, ?_⟩
    · rw [hrest.supply, hone.supply]
      simp [Nat.add_assoc]
    · rw [hrest.currentValidators, hone.currentValidators, append_assoc, ← filter_append]
      rfl
    · rw [hrest.pendingValidators, hone.pendingValidators, append_assoc, ← filter_append]
      rfl
    · rw [hrest.currentDelegators, hone.currentDelegators, append_assoc, ← filter_append]
      rfl
    · rw [hrest.pendingDelegators, hone.pendingDelegators, append_assoc, ← filter_append]
      rfl

/-! ## The new staker sets -/

section Sets

variable {c : Chain} {t : Time} {moved : List Staker}

section

variable (h : c.Periods)
  (hb : List.Forall₂ Becomes (c.pending.stakers.takeWhile fun s => ¬s.startTime > t) moved)

include h hb

/-- A staker that has moved comes from a pending staker, with its role. -/
theorem Chain.Periods.movedStakers_from {x : Staker} (hx : x ∈ moved) :
    ∃ s ∈ c.pending.stakers, s.Same x ∧
      (x.priority ≠ primaryNetworkDelegatorCurrentPriority → c.pending.IsValidator s) := by
  obtain ⟨s, hs, hbecomes⟩ := hb.exists_left hx
  have hmem := (h.mem_movedStakers.mp hs).1
  refine ⟨s, hmem, hbecomes.same, fun hprio => ?_⟩
  rcases h.moved_role hmem hbecomes with ⟨hval, -⟩ | ⟨-, -, hdel⟩
  · exact hval
  · exact absurd hdel hprio

theorem Chain.Periods.nodup_movedStakers : (moved.map Staker.txID).Nodup := by
  have hsub := takeWhile_sublist (l := c.pending.stakers) fun s => ¬s.startTime > t
  have hmap : moved.map Staker.txID =
      (c.pending.stakers.takeWhile fun s => ¬s.startTime > t).map Staker.txID := by
    refine forall₂_eq_eq_eq ▸ forall₂_map_left_iff.mpr (forall₂_map_right_iff.mpr ?_)
    exact (hb.imp fun s x hx => hx.same.txID).flip
  rw [hmap]
  refine List.Nodup.map_on (fun x hx y hy heq => ?_) (h.pending.nodup.sublist hsub)
  exact h.pending.txID_inj (hsub.subset hx) (hsub.subset hy) heq

/-- No current staker has the transaction of one that has moved. -/
theorem Chain.Periods.lacks_movedStakers
    {x : Staker} (hx : x ∈ moved) : c.current.Lacks x.txID := by
  obtain ⟨s, hs, hsame, -⟩ := h.movedStakers_from hb hx
  intro y hy heq
  exact h.different_txs y hy s hs (heq.trans hsame.txID)

end

/-- The current stakers after the three batches of changes. -/
theorem Chain.Periods.advance_current (h : c.Periods)
    (hle : ∀ s ∈ c.current.stakers, t ≤ s.nextTime)
    (hb : List.Forall₂ Becomes (c.pending.stakers.takeWhile fun s => ¬s.startTime > t) moved) :
    ∃ current, ((currentValidatorsToRemove c t).foldl deleteValidator
        ((moved.filter (·.priority = primaryNetworkDelegatorCurrentPriority)).foldl
          DiffStakers.putDelegator
          ((moved.filter (·.priority ≠ primaryNetworkDelegatorCurrentPriority)).foldl
            DiffStakers.putValidator .empty))).Changes c.current current ∧
      (∀ x, current.IsValidator x ↔
        x ∈ moved ∧ x.priority ≠ primaryNetworkDelegatorCurrentPriority ∨
          c.current.IsValidator x ∧ x ∉ currentValidatorsToRemove c t) ∧
      ∀ x, current.IsDelegator x ↔
        x ∈ moved ∧ x.priority = primaryNetworkDelegatorCurrentPriority ∨ c.current.IsDelegator x := by
  have htxs := h.nodup_movedStakers hb
  have hinj : ∀ x ∈ moved, ∀ y ∈ moved, x.txID = y.txID → x = y := fun x hx y hy heq =>
    inj_on_of_nodup_map htxs hx hy heq
  have hlacks : ∀ x ∈ moved, c.current.Lacks x.txID := fun x hx => h.lacks_movedStakers hb hx
  have hvals : ∀ x, x ∈ moved.filter (·.priority ≠ primaryNetworkDelegatorCurrentPriority) ↔
      x ∈ moved ∧ x.priority ≠ primaryNetworkDelegatorCurrentPriority := by simp
  have hdels : ∀ x, x ∈ moved.filter (·.priority = primaryNetworkDelegatorCurrentPriority) ↔
      x ∈ moved ∧ x.priority = primaryNetworkDelegatorCurrentPriority := by simp
  obtain ⟨w1, hw1, hval1, hdel1⟩ := (Changes.empty h.current).putValidators
    (l := moved.filter (·.priority ≠ primaryNetworkDelegatorCurrentPriority)) h.current
    (by
      refine List.Nodup.map_on (fun x hx y hy heq => ?_) ((List.Nodup.of_map _ htxs).filter _)
      obtain ⟨hx, hpx⟩ := (hvals x).mp hx
      obtain ⟨hy, hpy⟩ := (hvals y).mp hy
      obtain ⟨s, -, hsx, hs⟩ := h.movedStakers_from hb hx
      obtain ⟨u, -, huy, hu⟩ := h.movedStakers_from hb hy
      have hslot : s.slot = u.slot := by rw [← hsx.slot, ← huy.slot, heq]
      have hsu : some s = some u := (hs hpx).symm.trans ((congrArg _ hslot).trans (hu hpy))
      cases hsu
      exact hinj x hx y hy (hsx.txID.trans huy.txID.symm))
    (htxs.sublist (filter_sublist.map _))
    (by
      intro x hx
      obtain ⟨hx, hpx⟩ := (hvals x).mp hx
      obtain ⟨s, -, hsame, hs⟩ := h.movedStakers_from hb hx
      have hnone : c.current.validator x.slot = none :=
        h.current.validator_eq_none.mpr fun u hu hk =>
          h.one_validator u s hu (hs hpx) (hk.trans hsame.slot)
      exact ⟨hnone, hnone⟩)
    (fun x hx => ⟨hlacks x ((hvals x).mp hx).1, hlacks x ((hvals x).mp hx).1⟩)
  obtain ⟨w2, hw2, hval2, hdel2⟩ := hw1.putDelegators
    (l := moved.filter (·.priority = primaryNetworkDelegatorCurrentPriority)) h.current
    (htxs.sublist (filter_sublist.map _))
    (by
      intro x hx
      obtain ⟨hx, hpx⟩ := (hdels x).mp hx
      refine ⟨hlacks x hx, hw1.coherent.lacks_iff.mpr fun u hu heq => ?_⟩
      rcases hu with hu | hu
      · rcases (hval1 u).mp hu with hu | hu
        · obtain ⟨hu, hpu⟩ := (hvals u).mp hu
          exact hpu (hinj u hu x hx heq ▸ hpx)
        · exact hlacks x hx u (h.current.mem_stakers.mpr (.inl hu)) heq
      · exact hlacks x hx u (h.current.mem_stakers.mpr (.inr ((hdel1 u).mp hu))) heq)
  have hremoved : ∀ x ∈ currentValidatorsToRemove c t, c.current.IsValidator x := fun x hx =>
    ((h.mem_removedStakers hle).mp hx).1
  obtain ⟨w3, hw3, hval3, hdel3⟩ := hw2.deleteValidators (l := currentValidatorsToRemove c t)
    h.current (h.current.nodup.sublist (takeWhile_sublist _))
    (fun x hx => ⟨hremoved x hx, (hval2 x).mpr ((hval1 x).mpr (.inr (hremoved x hx)))⟩)
  refine ⟨w3, hw3, fun x => ?_, fun x => ?_⟩
  · rw [hval3, hval2, hval1, hvals]
    -- a staker that has just moved is not among those that leave
    have hnew : x ∈ moved → x ∉ currentValidatorsToRemove c t := fun hx hrem =>
      hlacks x hx x (h.current.mem_stakers.mpr (.inl (hremoved x hrem))) rfl
    tauto
  · rw [hdel3, hdel2, hdel1, hdels]

/-- The pending stakers after the two batches of changes. -/
theorem Chain.Periods.advance_pending (h : c.Periods) : ∃ pending,
      (((c.pending.stakers.takeWhile fun s => ¬s.startTime > t).filter
          (·.priority = primaryNetworkDelegatorPendingPriority)).foldl deleteDelegator
        (((c.pending.stakers.takeWhile fun s => ¬s.startTime > t).filter
          (·.priority ≠ primaryNetworkDelegatorPendingPriority)).foldl deleteValidator
          .empty)).Changes c.pending pending ∧
      (∀ x, pending.IsValidator x ↔ c.pending.IsValidator x ∧ t < x.startTime) ∧
      ∀ x, pending.IsDelegator x ↔ c.pending.IsDelegator x ∧ t < x.startTime := by
  have hnodup := h.pending.nodup.sublist
    (takeWhile_sublist (l := c.pending.stakers) fun s => ¬s.startTime > t)
  have hprio : ∀ x, c.pending.IsValidator x → x.priority ≠ primaryNetworkDelegatorPendingPriority := by
    intro x hx
    rcases h.pending_validator x hx with ⟨-, hp⟩ | ⟨-, hp⟩
    · rw [hp]
      decide
    rw [hp]
    decide
  have hvals : ∀ x, x ∈ (c.pending.stakers.takeWhile fun s => ¬s.startTime > t).filter
      (·.priority ≠ primaryNetworkDelegatorPendingPriority) ↔
      c.pending.IsValidator x ∧ x.startTime ≤ t := by
    intro x
    rw [mem_filter, h.mem_movedStakers, h.pending.mem_stakers, decide_eq_true_eq]
    constructor
    · rintro ⟨⟨hval | hdel, hle⟩, hp⟩
      · exact ⟨hval, hle⟩
      · exact absurd (h.pending_delegator x hdel).2 hp
    · rintro ⟨hval, hle⟩
      exact ⟨⟨.inl hval, hle⟩, hprio x hval⟩
  have hdels : ∀ x, x ∈ (c.pending.stakers.takeWhile fun s => ¬s.startTime > t).filter
      (·.priority = primaryNetworkDelegatorPendingPriority) ↔
      c.pending.IsDelegator x ∧ x.startTime ≤ t := by
    intro x
    rw [mem_filter, h.mem_movedStakers, h.pending.mem_stakers, decide_eq_true_eq]
    constructor
    · rintro ⟨⟨hval | hdel, hle⟩, hp⟩
      · exact absurd hp (hprio x hval)
      · exact ⟨hdel, hle⟩
    · rintro ⟨hdel, hle⟩
      exact ⟨⟨.inr hdel, hle⟩, (h.pending_delegator x hdel).2⟩
  obtain ⟨w1, hw1, hval1, hdel1⟩ := (Changes.empty h.pending).deleteValidators
    h.pending (hnodup.filter _) fun x hx => ⟨((hvals x).mp hx).1, ((hvals x).mp hx).1⟩
  obtain ⟨w2, hw2, hval2, hdel2⟩ := hw1.deleteDelegators h.pending (hnodup.filter _)
    fun x hx => ⟨((hdels x).mp hx).1, (hdel1 x).mpr ((hdels x).mp hx).1⟩
  refine ⟨w2, hw2, fun x => ?_, fun x => ?_⟩
  · rw [hval2, hval1, hvals, ← not_le]
    tauto
  · rw [hdel2, hdel1, hdels, ← not_le]
    tauto

end Sets

/-! ## The diff -/

namespace Diff

/-- A batch of changes to the current stakers. -/
theorem foldl_current {f : Diff → Staker → Diff} {op : DiffStakers → Staker → DiffStakers}
    (hf : ∀ d s, f d s = { d with currentStakerDiffs := op d.currentStakerDiffs s }) (l : List Staker)
    (d : Diff) :
    l.foldl f d = { d with currentStakerDiffs := l.foldl op d.currentStakerDiffs } := by
  induction l generalizing d with
  | nil => rfl
  | cons s l ih => rw [foldl_cons, ih, hf, foldl_cons]

/-- A batch of changes to the pending stakers. -/
theorem foldl_pending {f : Diff → Staker → Diff} {op : DiffStakers → Staker → DiffStakers}
    (hf : ∀ d s, f d s = { d with pendingStakerDiffs := op d.pendingStakerDiffs s }) (l : List Staker)
    (d : Diff) :
    l.foldl f d = { d with pendingStakerDiffs := l.foldl op d.pendingStakerDiffs } := by
  induction l generalizing d with
  | nil => rfl
  | cons s l ih => rw [foldl_cons, ih, hf, foldl_cons]

theorem Reads.setTime {d : Diff} {p c : Chain} (h : d.Reads p c) (timestamp : Time)
    (currentSupply : Nat) :
    { d with timestamp, currentSupply }.Reads p { c with timestamp, currentSupply } where
  current := h.current
  pending := h.pending
  read_eq := by
    obtain rfl := h.read_eq
    rfl

end Diff

/-- A transaction without inputs and outputs spends nothing. -/
theorem Ledger.Spends.idle {b : Backend} {l : Ledger} {stx : Tx}
    (hreward : stx.unsigned.rewards = none) (hins : stx.unsigned.ins = [])
    (hmade : stx.unsigned.made = []) (himported : stx.unsigned.imported = [])
    (hvalidator : ∀ tx, stx.unsigned ≠ .addValidator tx)
    (hfee : stx.unsigned.fee b.config l.chain.timestamp = 0) : Spends b l stx := by
  refine ⟨hreward, fun hne => absurd hmade hne, by simp [hins], by simp [himported],
    fun tx htx => absurd htx (hvalidator tx), by simp [hmade], [], [], ?_, ?_, fun assetID => ?_⟩
  · rw [hins]
    exact .nil
  · rw [himported]
    exact .nil
  · rw [hmade, hfee]
    simp [amountOf, countWhere_cons]

theorem advanceTimeTx_step {b : Backend} {env : Env} {T : Set Tx} {l : Ledger} {stx : Tx}
    {parentID : ID} {p : Proposal} {time : Nat} (hv : l.Valid b.ctx T)
    (hutx : stx.unsigned = .advanceTime time)
    (h : advanceTimeTx b env parentID (some l.chain) stx time = .ok p) : ProposalStep b l stx p := by
  simp only [advanceTimeTx, bind_eq_ok, exists_unit, failIf_eq_ok,
    ofOption_eq_ok, ok.injEq, not_not] at h
  obtain ⟨-, -, c, hc, hafter, next, hnext, hle, m, hm, rfl⟩ := h
  cases hc
  have hle := not_lt.mp hle
  have hper := hv.periods
  have hmem : ∀ s ∈ l.chain.pending.stakers.takeWhile (fun s => ¬s.startTime > Time.unix time),
      s ∈ l.chain.pending.stakers := fun s hs => (hper.mem_movedStakers.mp hs).1
  obtain ⟨moved, hcol⟩ := movePendings (fun s hs => hv.staked.pending_reward s (hmem s hs))
    (fun s hs hne => by
      rcases hper.pending.mem_stakers.mp (hmem s hs) with hval | hdel
      · rcases hper.pending_validator s hval with ⟨hprimary, -⟩ | ⟨-, hp⟩
        · exact absurd hprimary hne
        · exact hp
      · exact absurd (hper.pending_delegator s hdel).1 hne) hm
  obtain ⟨current, hcurrent, hcval, hcdel⟩ := hper.advance_current
    (fun s hs => hle.trans ((hper.le_nextTime hnext).1 s hs)) hcol.becomes
  obtain ⟨pending, hpending, hpval, hpdel⟩ := hper.advance_pending (t := Time.unix time)
  have hmoves : Moves l.chain (Time.unix time) moved m.currentSupply current pending :=
    ⟨hcol.becomes, hcol.supply, hcurrent.coherent, hpending.coherent, hcval, hcdel, hpval, hpdel⟩
  have hnew := Diff.Reads.new hper.current hper.pending parentID
  constructor
  · refine ⟨l.advance stx (Time.unix time) m.currentSupply current pending, ?_,
      .advance time hutx hafter ⟨next, hnext, hle⟩ hmoves rfl⟩
    have hd := ((hnew.setTime (Time.unix time) m.currentSupply).updateCurrent hcurrent).updatePending
      hpending
    rw [Diff.foldl_current (f := .putCurrentValidator) (fun _ _ => rfl),
      Diff.foldl_pending (f := .deletePendingValidator) (fun _ _ => rfl),
      Diff.foldl_current (f := .putCurrentDelegator) (fun _ _ => rfl),
      Diff.foldl_pending (f := .deletePendingDelegator) (fun _ _ => rfl),
      Diff.foldl_current (f := .deleteCurrentValidator) (fun _ _ => rfl),
      hcol.currentValidators, hcol.currentDelegators, hcol.pendingValidators, hcol.pendingDelegators]
    exact hd.addTx stx .committed
  · refine .spend hutx (.idle (by rw [hutx]; rfl) (by rw [hutx]; rfl) (by rw [hutx]; rfl)
      (by rw [hutx]; rfl) (by simp [hutx]) (by rw [hutx]; rfl)) rfl hnew ?_
    show l.chain.bare = ((l.chain.deleteUTXOs []).addUTXOs []).bare
    simp [Chain.deleteUTXOs, Chain.addUTXOs]

end SavannahNode.PlatformVM
