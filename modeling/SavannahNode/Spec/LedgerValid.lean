import SavannahNode.Spec.LedgerPeriods

/-!
# The invariant of the ledger

Every staker comes from a transaction that was executed and has its node, weight and period.
The stake of that transaction is not in the UTXO set: the output indices that return it are
still unused. With the periods of stakers and the records this is kept by every transaction.

## Key results

* `Ledger.Valid` and `Ledger.Valid.step` — the invariant, and that a transaction keeps it.
-/

namespace SavannahNode.PlatformVM

open List

namespace Chain

/-- A current or pending validator. -/
def IsValidator (c : Chain) (s : Staker) : Prop := c.current.IsValidator s ∨ c.pending.IsValidator s

/-- A current or pending delegator. -/
def IsDelegator (c : Chain) (s : Staker) : Prop := c.current.IsDelegator s ∨ c.pending.IsDelegator s

end Chain

namespace Ledger

/-- The staker has the subnet, node, weight and period that its transaction names. -/
structure Represents (s : Staker) (v : Validator) (subnetID : ID) : Prop where
  subnetID_eq : s.subnetID = subnetID
  nodeID_eq : s.nodeID = v.nodeID
  weight_eq : s.weight = v.wght
  startTime_eq : s.startTime = v.startTime
  endTime_eq : s.endTime = v.endTime

/-- The transaction that made a staker a validator. -/
inductive ValidatorOf (ctx : Context) (s : Staker) : UnsignedTx → Prop where
  | primary (tx : AddValidatorTx) (hs : Represents s tx.validator primaryNetworkID)
      (hstake : Stakes ctx tx.validator tx.stake tx.rewardsOwner) :
      ValidatorOf ctx s (.addValidator tx)
  | subnet (tx : AddSubnetValidatorTx) (hsubnet : tx.subnet ≠ primaryNetworkID)
      (hs : Represents s tx.validator tx.subnet) : ValidatorOf ctx s (.addSubnetValidator tx)

/-- The transaction that made a staker a delegator. -/
inductive DelegatorOf (ctx : Context) (s : Staker) : UnsignedTx → Prop where
  | delegator (tx : AddDelegatorTx) (hs : Represents s tx.validator primaryNetworkID)
      (hstake : Stakes ctx tx.validator tx.stake tx.rewardsOwner) :
      DelegatorOf ctx s (.addDelegator tx)

/-- Where the stakers come from. -/
structure Staked (ctx : Context) (l : Ledger) : Prop where
  validator : ∀ s, l.chain.IsValidator s →
    ∃ t, l.chain.tx s.txID = some t ∧ ValidatorOf ctx s t.1.unsigned
  delegator : ∀ s, l.chain.IsDelegator s →
    ∃ t, l.chain.tx s.txID = some t ∧ DelegatorOf ctx s t.1.unsigned
  /-- The stake and the rewards have not been paid out. -/
  unproduced : ∀ s, l.chain.IsValidator s ∨ l.chain.IsDelegator s → s.subnetID = primaryNetworkID →
    ∀ t, l.chain.tx s.txID = some t → ∀ id ∈ l.produced, id.txID = s.txID →
      id.outputIndex < t.1.unsigned.outs.length
  pending_reward : ∀ s ∈ l.chain.pending.stakers, s.potentialReward = 0
  current_reward : ∀ s ∈ l.chain.current.stakers,
    s.potentialReward < 2 ^ 64 ∧ (s.subnetID ≠ primaryNetworkID → s.potentialReward = 0)

/-- The invariant of the ledger. -/
structure Valid (ctx : Context) (T : Set Tx) (l : Ledger) : Prop where
  periods : l.chain.Periods
  records : l.Records T
  staked : l.Staked ctx

/-! ## Stakers and their transactions -/

section Transactions

variable {ctx : Context} {s x : Staker} {utx : UnsignedTx}

theorem Represents.same {v : Validator} {subnetID : ID} (h : Represents s v subnetID)
    (hsame : s.Same x) : Represents x v subnetID where
  subnetID_eq := hsame.subnetID.trans h.subnetID_eq
  nodeID_eq := hsame.nodeID.trans h.nodeID_eq
  weight_eq := hsame.weight.trans h.weight_eq
  startTime_eq := hsame.startTime.trans h.startTime_eq
  endTime_eq := hsame.endTime.trans h.endTime_eq

theorem ValidatorOf.same (h : ValidatorOf ctx s utx) (hsame : s.Same x) : ValidatorOf ctx x utx := by
  cases h with
  | primary tx hs hstake => exact .primary tx (hs.same hsame) hstake
  | subnet tx hsubnet hs => exact .subnet tx hsubnet (hs.same hsame)

theorem DelegatorOf.same (h : DelegatorOf ctx s utx) (hsame : s.Same x) : DelegatorOf ctx x utx := by
  cases h with
  | delegator tx hs hstake => exact .delegator tx (hs.same hsame) hstake

/-- The staker of a new transaction. -/
theorem represents_new (txID : ID) (v : Validator) (nextTime : Time) (priority : Priority) :
    Represents (newPrimaryNetworkStaker txID v nextTime priority) v primaryNetworkID :=
  ⟨rfl, rfl, rfl, rfl, rfl⟩

end Transactions

namespace Staked

variable {ctx : Context} {T : Set Tx} {l l' : Ledger} {stx : Tx}

/-- One transaction: stakers leave or change their set, and one may come from it. -/
theorem next (hT : Set.InjOn Tx.id T) (hr : l.Records T) (h : l.Staked ctx) (hstx : stx ∈ T)
    {status : TxStatus} {added : List UTXO}
    (htx : l'.chain.tx = Function.update l.chain.tx stx.id (some (stx, status)))
    (hproduced : l'.produced = l.produced ++ added.map UTXO.utxoID)
    (hval : ∀ s, l'.chain.IsValidator s → (∃ s0, l.chain.IsValidator s0 ∧ s0.Same s) ∨
      s.txID = stx.id ∧ ValidatorOf ctx s stx.unsigned)
    (hdel : ∀ s, l'.chain.IsDelegator s → (∃ s0, l.chain.IsDelegator s0 ∧ s0.Same s) ∨
      s.txID = stx.id ∧ DelegatorOf ctx s stx.unsigned)
    (hfresh : ∀ s, l'.chain.IsValidator s ∨ l'.chain.IsDelegator s → s.subnetID = primaryNetworkID →
      (∃ s0, (l.chain.IsValidator s0 ∨ l.chain.IsDelegator s0) ∧ s0.Same s) ∨
      ∀ id ∈ l.produced, id.txID ≠ s.txID)
    (hadded : ∀ s, l'.chain.IsValidator s ∨ l'.chain.IsDelegator s →
      s.subnetID = primaryNetworkID → ∀ u ∈ added, u.utxoID.txID = s.txID →
      s.txID = stx.id ∧ u.utxoID.outputIndex < stx.unsigned.outs.length)
    (hpending : ∀ s ∈ l'.chain.pending.stakers, s.potentialReward = 0)
    (hcurrent : ∀ s ∈ l'.chain.current.stakers,
      s.potentialReward < 2 ^ 64 ∧ (s.subnetID ≠ primaryNetworkID → s.potentialReward = 0)) :
    l'.Staked ctx := by
  -- a transaction that was there is still there
  have hkept : ∀ id t, l.chain.tx id = some t → ∃ t', l'.chain.tx id = some t' ∧ t'.1 = t.1 := by
    intro id t ht
    rw [htx]
    exact hr.tx_update hT hstx ht
  have hnew : l'.chain.tx stx.id = some (stx, status) := by
    rw [htx]
    exact Function.update_self ..
  refine ⟨fun s hs => ?_, fun s hs => ?_, fun s hs hprimary t ht id hid heq => ?_, hpending, hcurrent⟩
  · rcases hval s hs with ⟨s0, hs0, hsame⟩ | ⟨hid, hof⟩
    · obtain ⟨t, ht, hof⟩ := h.validator s0 hs0
      obtain ⟨t', ht', heq⟩ := hkept _ t ht
      rw [hsame.txID]
      exact ⟨t', ht', heq ▸ hof.same hsame⟩
    · exact ⟨_, hid ▸ hnew, hof⟩
  · rcases hdel s hs with ⟨s0, hs0, hsame⟩ | ⟨hid, hof⟩
    · obtain ⟨t, ht, hof⟩ := h.delegator s0 hs0
      obtain ⟨t', ht', heq⟩ := hkept _ t ht
      rw [hsame.txID]
      exact ⟨t', ht', heq ▸ hof.same hsame⟩
    · exact ⟨_, hid ▸ hnew, hof⟩
  rw [hproduced, mem_append] at hid
  rcases hid with hid | hid
  · rcases hfresh s hs hprimary with ⟨s0, hs0, hsame⟩ | hfresh
    · have hrecorded : ∃ t0, l.chain.tx s0.txID = some t0 := by
        rcases hs0 with hs0 | hs0
        · exact (h.validator s0 hs0).imp fun _ => And.left
        · exact (h.delegator s0 hs0).imp fun _ => And.left
      obtain ⟨t0, ht0⟩ := hrecorded
      obtain ⟨t', ht', heq'⟩ := hkept _ t0 ht0
      rw [hsame.txID, ht'] at ht
      cases ht
      rw [heq']
      exact h.unproduced s0 hs0 (hsame.subnetID.symm.trans hprimary) t0 ht0 id hid
        (heq.trans hsame.txID)
    · exact absurd heq (hfresh id hid)
  · obtain ⟨u, hu, rfl⟩ := mem_map.mp hid
    obtain ⟨hstxid, hlt⟩ := hadded s hs hprimary u hu heq
    rw [hstxid, hnew] at ht
    cases ht
    exact hlt

end Staked

/-! ## Enlisting -/

variable {ctx : Context} {utx : UnsignedTx}

theorem Stakes.ne_nil {v : Validator} {stake : List TransferableOutput} {owner : OutputOwners}
    (h : Stakes ctx v stake owner) : stake ≠ [] := by
  rintro rfl
  have hpos := h.weight_pos
  rw [← h.weight] at hpos
  exact absurd hpos (lt_irrefl 0)

theorem made_ne_nil_of_stake (h : utx.stake ≠ []) : utx.made ≠ [] := by
  intro hmade
  rw [UnsignedTx.made, append_eq_nil_iff, append_eq_nil_iff] at hmade
  exact h hmade.2.1

/-- A staker of the primary network has a stake. -/
theorem made_ne_nil {s : Staker} (h : ValidatorOf ctx s utx ∨ DelegatorOf ctx s utx)
    (hprimary : s.subnetID = primaryNetworkID) : utx.made ≠ [] := by
  apply made_ne_nil_of_stake
  rcases h with h | h
  · cases h with
    | primary tx hs hstake => exact hstake.ne_nil
    | subnet tx hsubnet hs => exact absurd (hs.subnetID_eq.symm.trans hprimary) hsubnet
  cases h with
  | delegator tx hs hstake => exact hstake.ne_nil

namespace Valid

variable {b : Backend} {T : Set Tx} {l l' : Ledger} {stx : Tx}

/-- The invariant is not about what no transaction reads. -/
theorem of_bare (hl' : l'.bare = l.bare) (h : l.Valid ctx T) : l'.Valid ctx T := by
  have hbare : l'.bare.Valid ctx T :=
    hl' ▸ ⟨{ h.periods with }, { h.records with }, { h.staked with }⟩
  exact ⟨{ hbare.periods with }, { hbare.records with }, { hbare.staked with }⟩

/-- A staker of a transaction that was executed. -/
theorem staker_tx (h : l.Valid b.ctx T) {s : Staker}
    (hs : s ∈ l.chain.current.stakers ∨ s ∈ l.chain.pending.stakers) :
    ∃ t, l.chain.tx s.txID = some t ∧ (l.chain.IsValidator s ∧ ValidatorOf b.ctx s t.1.unsigned ∨
        l.chain.IsDelegator s ∧ DelegatorOf b.ctx s t.1.unsigned) := by
  have hrole : l.chain.IsValidator s ∨ l.chain.IsDelegator s := by
    rcases hs with hs | hs
    · exact (h.periods.current.mem_stakers.mp hs).imp .inl .inl
    · exact (h.periods.pending.mem_stakers.mp hs).imp .inr .inr
  rcases hrole with hs | hs
  · exact (h.staked.validator s hs).imp fun t ht => ⟨ht.1, .inl ⟨hs, ht.2⟩⟩
  · exact (h.staked.delegator s hs).imp fun t ht => ⟨ht.1, .inr ⟨hs, ht.2⟩⟩

/-- No staker comes from a transaction that was not executed. -/
theorem lacks_of_not_recorded (h : l.Valid b.ctx T) {id : ID} (hid : l.chain.tx id = none) :
    l.chain.current.Lacks id ∧ l.chain.pending.Lacks id := by
  have hall : ∀ s, s ∈ l.chain.current.stakers ∨ s ∈ l.chain.pending.stakers → s.txID ≠ id := by
    rintro s hs rfl
    obtain ⟨t, ht, -⟩ := h.staker_tx hs
    rw [hid] at ht
    cases ht
  exact ⟨fun s hs => hall s (.inl hs), fun s hs => hall s (.inr hs)⟩

/-- A subnet validator that is already there occupies its slot. -/
theorem lacks_of_free (hT : Set.InjOn Tx.id T) (h : l.Valid b.ctx T) (hstx : stx ∈ T)
    {tx : AddSubnetValidatorTx} (htx : stx.unsigned = .addSubnetValidator tx)
    (hfree : l.chain.getValidator tx.subnet tx.validator.nodeID = none) :
    l.chain.current.Lacks stx.id ∧ l.chain.pending.Lacks stx.id := by
  have hall : ∀ s, s ∈ l.chain.current.stakers ∨ s ∈ l.chain.pending.stakers → s.txID ≠ stx.id := by
    intro s hs hid
    obtain ⟨t, ht, hrole⟩ := h.staker_tx hs
    obtain ⟨htid, hmem⟩ := h.records.tx_id _ _ ht
    have heq : t.1.unsigned = .addSubnetValidator tx := by
      rw [hT hmem hstx (htid.trans hid), htx]
    rw [heq] at hrole
    rcases hrole with ⟨hval, hof⟩ | ⟨-, hof⟩
    · cases hof with
      | subnet tx hsubnet hrep =>
        have hget := h.periods.getValidator_eq hval
        rw [hrep.subnetID_eq, hrep.nodeID_eq, hfree] at hget
        cases hget
    · cases hof
  exact ⟨fun s hs => hall s (.inl hs), fun s hs => hall s (.inr hs)⟩

/-- A transaction that enlists a staker has none yet. -/
theorem lacks_of_enlists (hT : Set.InjOn Tx.id T) (h : l.Valid b.ctx T) (hs : Spends b l stx)
    (hstx : stx ∈ T) {pending : Stakers} (he : Enlists b l.chain stx pending) :
    l.chain.current.Lacks stx.id ∧ l.chain.pending.Lacks stx.id := by
  cases he with
  | validator tx htx hstake =>
    refine h.lacks_of_not_recorded (h.records.not_recorded hT hs hstx (made_ne_nil_of_stake ?_))
    rw [htx]
    exact hstake.ne_nil
  | subnetValidator tx v htx hsubnet hstart hperiod hfree =>
    exact h.lacks_of_free hT hstx htx hfree
  | delegator tx v limit htx hstake =>
    refine h.lacks_of_not_recorded (h.records.not_recorded hT hs hstx (made_ne_nil_of_stake ?_))
    rw [htx]
    exact hstake.ne_nil

end Valid

/-- The pending stakers after a staker was enlisted: it comes from the transaction. -/
theorem Enlists.mem {b : Backend} {c : Chain} {stx : Tx} {pending : Stakers}
    (he : Enlists b c stx pending) (hc : c.pending.Coherent) (hlacks : c.pending.Lacks stx.id) :
    (∀ x, pending.IsValidator x → c.pending.IsValidator x ∨
      x.txID = stx.id ∧ x.potentialReward = 0 ∧ ValidatorOf b.ctx x stx.unsigned) ∧
    ∀ x, pending.IsDelegator x → c.pending.IsDelegator x ∨
      x.txID = stx.id ∧ x.potentialReward = 0 ∧ DelegatorOf b.ctx x stx.unsigned := by
  cases he with
  | validator tx htx hstake hmin hmax hstart hperiod hfree =>
    have hnone := (Chain.getValidator_eq_none (c := c) (by rw [hfree]; exact Bool.noConfusion)).2
    refine ⟨fun x hx => ?_, fun x hx => .inl hx⟩
    rcases (Stakers.Coherent.isValidator_putValidator hnone).mp hx with rfl | hx
    · rw [htx]
      exact .inr ⟨rfl, rfl, .primary tx (represents_new ..) hstake⟩
    · exact .inl hx
  | subnetValidator tx v htx hsubnet hstart hperiod hfree hv hinside =>
    have hnone := (Chain.getValidator_eq_none (c := c) (by rw [hfree]; exact Bool.noConfusion)).2
    refine ⟨fun x hx => ?_, fun x hx => .inl hx⟩
    rcases (Stakers.Coherent.isValidator_putValidator hnone).mp hx with rfl | hx
    · rw [htx]
      exact .inr ⟨rfl, rfl, .subnet tx hsubnet ⟨rfl, rfl, rfl, rfl, rfl⟩⟩
    · exact .inl hx
  | delegator tx v limit htx hstake hstart hperiod hv hlimit hcan =>
    refine ⟨fun x hx => .inl hx, fun x hx => ?_⟩
    rcases (hc.isDelegator_putDelegator hlacks).mp hx with rfl | hx
    · rw [htx]
      exact .inr ⟨rfl, rfl, .delegator tx (represents_new ..) hstake⟩
    · exact .inl hx

/-! ## What a staker is paid -/

theorem refund_ids {txID : ID} : (refund ctx txID utx).map UTXO.utxoID =
      (utxosFrom txID utx.outs.length utx.stake).map UTXO.utxoID := by
  rw [refund, map_map]
  rfl

theorem mem_rewardUTXOs {txID : ID} {index amount : Nat} {owner : OutputOwners} {u : UTXO}
    (hu : u ∈ rewardUTXOs ctx txID index amount owner) :
    0 < amount ∧ u = rewardUTXO ctx txID index amount owner := by
  rw [rewardUTXOs] at hu
  split at hu
  · exact ⟨‹_›, mem_singleton.mp hu⟩
  · exact absurd hu not_mem_nil

theorem nodup_rewardUTXOs (ctx : Context) (txID : ID) (index amount : Nat) (owner : OutputOwners) :
    ((rewardUTXOs ctx txID index amount owner).map UTXO.utxoID).Nodup := by
  rw [rewardUTXOs]
  split
  · exact nodup_singleton _
  · exact nodup_nil

namespace Retires

variable {ctx : Context} {c : Chain} {s : Staker} {utx : UnsignedTx} {current : Stakers}
  {rewards : List UTXO}

/-- The output indices of rewards follow those of the stake. -/
theorem reward_ids (h : Retires ctx c s utx current rewards) :
    (rewards.map UTXO.utxoID).Nodup ∧ ∀ u ∈ rewards, u.utxoID.txID = s.txID ∧
      utx.outs.length + utx.stake.length ≤ u.utxoID.outputIndex := by
  cases h with
  | validator tx htx =>
    subst htx
    refine ⟨nodup_rewardUTXOs .., fun u hu => ?_⟩
    rw [(mem_rewardUTXOs hu).2]
    exact ⟨rfl, le_rfl⟩
  | delegator tx v vtx vdrTx htx hv hvtx hvdrTx =>
    subst htx
    constructor
    · rw [map_append]
      refine (nodup_rewardUTXOs ..).append (nodup_rewardUTXOs ..) fun id hid hid' => ?_
      obtain ⟨u, hu, rfl⟩ := mem_map.mp hid
      obtain ⟨u', hu', heq⟩ := mem_map.mp hid'
      obtain ⟨hpos, rfl⟩ := mem_rewardUTXOs hu
      obtain ⟨-, rfl⟩ := mem_rewardUTXOs hu'
      have hindex := congrArg UTXOID.outputIndex heq
      simp only [rewardUTXO, if_pos hpos] at hindex
      omega
    · intro u hu
      rcases mem_append.mp hu with hu | hu
      · rw [(mem_rewardUTXOs hu).2]
        exact ⟨rfl, le_rfl⟩
      rw [(mem_rewardUTXOs hu).2]
      exact ⟨rfl, Nat.le_add_right _ _⟩

/-- What a staker is paid has output indices of its transaction that are different, and not
    those of the transaction's own outputs. -/
theorem paid_ids (h : Retires ctx c s utx current rewards) {paid : List UTXO}
    (hpaid : paid = refund ctx s.txID utx ∨ paid = refund ctx s.txID utx ++ rewards) :
    (paid.map UTXO.utxoID).Nodup ∧
      ∀ u ∈ paid, u.utxoID.txID = s.txID ∧ utx.outs.length ≤ u.utxoID.outputIndex := by
  obtain ⟨hnodup, hids⟩ := h.reward_ids
  have hrefund : ∀ u ∈ refund ctx s.txID utx, u.utxoID.txID = s.txID ∧
      utx.outs.length ≤ u.utxoID.outputIndex ∧
        u.utxoID.outputIndex < utx.outs.length + utx.stake.length := by
    intro u hu
    have hid := mem_map_of_mem (f := UTXO.utxoID) hu
    rw [refund_ids] at hid
    obtain ⟨u', hu', heq⟩ := mem_map.mp hid
    rw [← heq]
    exact mem_utxosFrom hu'
  have hrefundNodup : ((refund ctx s.txID utx).map UTXO.utxoID).Nodup := by
    rw [refund_ids]
    exact nodup_utxosFrom ..
  rcases hpaid with rfl | rfl
  · exact ⟨hrefundNodup, fun u hu => ⟨(hrefund u hu).1, (hrefund u hu).2.1⟩⟩
  constructor
  · rw [map_append]
    refine hrefundNodup.append hnodup fun id hid hid' => ?_
    obtain ⟨u, hu, rfl⟩ := mem_map.mp hid
    obtain ⟨u', hu', heq⟩ := mem_map.mp hid'
    have hlt := (hrefund u hu).2.2
    have hle := (hids u' hu').2
    rw [heq] at hle
    omega
  intro u hu
  rcases mem_append.mp hu with hu | hu
  · exact ⟨(hrefund u hu).1, (hrefund u hu).2.1⟩
  · exact ⟨(hids u hu).1, (Nat.le_add_right _ _).trans (hids u hu).2⟩

end Retires

/-! ## Spending -/

namespace Valid

variable {b : Backend} {T : Set Tx} {l l' : Ledger} {stx : Tx}

/-- A transaction that produces a UTXO makes an output. -/
theorem makes_of_mem {outs : List TransferableOutput} (houts : outs ⊆ stx.unsigned.made) {u : UTXO}
    (hu : u ∈ utxosFrom stx.id 0 outs) : u.utxoID.txID = stx.id ∧ stx.unsigned.made ≠ [] := by
  refine ⟨(mem_utxosFrom hu).1, ?_⟩
  obtain ⟨p, hp, -⟩ := mem_map.mp hu
  exact ne_nil_of_mem (houts (fst_mem_of_mem_zipIdx hp))

variable {status : TxStatus} {pending current : Stakers} {s : Staker} {t : Tx × TxStatus}

section

variable (hT : Set.InjOn Tx.id T) (h : l.Valid b.ctx T) (hs : Spends b l stx) (hstx : stx ∈ T)

include hT h hs hstx

/-- The records after a transaction that spends. -/
theorem records_spend {outs : List TransferableOutput} (houts : outs ⊆ stx.unsigned.made) :
    (l.spend stx status outs pending).Records T := by
  obtain ⟨consumed, taken, -, htaken, -⟩ := hs.covered
  have hserve := SharedMemory.serve_requests hs.nodup_imported htaken stx.id
  refine h.records.next hstx rfl rfl rfl (fun i hi => ?_) (nodup_utxosFrom ..) (fun u hu => ?_)
    (fun u hu => ?_) (fun k => ?_) (fun c id => ?_)
  · obtain ⟨u, hu⟩ := hs.live hi
    exact ⟨mem_map_of_mem hi, (h.records.live _ u hu).2⟩
  · obtain ⟨hid, hmade⟩ := makes_of_mem houts hu
    exact h.records.not_produced hT hs hstx hmade hid
  · rw [(mem_utxosFrom hu).1]
    exact ⟨_, Function.update_self ..⟩
  · rw [Ledger.spend, hserve, SharedMemory.takenKeys, map_append, mem_append,
      map_fst_zip (le_of_eq htaken.length_eq)]
    rfl
  · rw [Ledger.spend, hserve]

/-- A transaction whose stakers, if it has any, do not stay. -/
theorem spend :
    (l.spend stx status (stx.unsigned.outs ++ stx.unsigned.stake) l.chain.pending).Valid b.ctx T := by
  have houts : stx.unsigned.outs ++ stx.unsigned.stake ⊆ stx.unsigned.made := by
    intro o ho
    rw [UnsignedTx.made, ← append_assoc]
    exact mem_append_left _ ho
  refine ⟨{ h.periods with }, h.records_spend hT hs hstx houts, ?_⟩
  refine h.staked.next hT h.records hstx rfl rfl (fun s hs => .inl ⟨s, hs, .refl s⟩)
    (fun s hs => .inl ⟨s, hs, .refl s⟩) (fun s hs _ => .inl ⟨s, hs, .refl s⟩)
    (fun s hs' _ u hu heq => ?_) h.staked.pending_reward h.staked.current_reward
  -- a transaction that makes an output was not executed, so no staker comes from it
  obtain ⟨hid, hmade⟩ := makes_of_mem houts hu
  have hnone := h.records.not_recorded hT hs hstx hmade
  rw [← hid, heq] at hnone
  have hsome : ∃ t, l.chain.tx s.txID = some t := by
    rcases hs' with hs' | hs'
    · exact (h.staked.validator s hs').imp fun _ => And.left
    · exact (h.staked.delegator s hs').imp fun _ => And.left
  obtain ⟨t, ht⟩ := hsome
  rw [hnone] at ht
  cases ht

/-- A transaction that enlists a staker. -/
theorem enlist (he : Enlists b l.chain stx pending) :
    (l.spend stx .committed stx.unsigned.outs pending).Valid b.ctx T := by
  set l' := l.spend stx .committed stx.unsigned.outs pending
  have houts : stx.unsigned.outs ⊆ stx.unsigned.made := fun o ho => mem_append_left _ ho
  have hlacks := h.lacks_of_enlists hT hs hstx he
  obtain ⟨hmval, hmdel⟩ := he.mem h.periods.pending hlacks.2
  have hval : ∀ s, l'.chain.IsValidator s → l.chain.IsValidator s ∨
      s.txID = stx.id ∧ s.potentialReward = 0 ∧ ValidatorOf b.ctx s stx.unsigned := by
    intro s hs
    exact hs.elim (fun hs => .inl (.inl hs)) fun hs => (hmval s hs).imp_left .inr
  have hdel : ∀ s, l'.chain.IsDelegator s → l.chain.IsDelegator s ∨
      s.txID = stx.id ∧ s.potentialReward = 0 ∧ DelegatorOf b.ctx s stx.unsigned := by
    intro s hs
    exact hs.elim (fun hs => .inl (.inl hs)) fun hs => (hmdel s hs).imp_left .inr
  have hnew : ∀ s, l'.chain.IsValidator s ∨ l'.chain.IsDelegator s →
      (l.chain.IsValidator s ∨ l.chain.IsDelegator s) ∨
        s.txID = stx.id ∧ (ValidatorOf b.ctx s stx.unsigned ∨ DelegatorOf b.ctx s stx.unsigned) := by
    rintro s (hs | hs)
    · exact (hval s hs).imp .inl fun hnew => ⟨hnew.1, .inl hnew.2.2⟩
    · exact (hdel s hs).imp .inr fun hnew => ⟨hnew.1, .inr hnew.2.2⟩
  have hperiods := h.periods.enlist he hlacks
  refine ⟨{ hperiods with }, h.records_spend hT hs hstx houts, ?_⟩
  refine h.staked.next hT h.records hstx rfl rfl
    (fun s hs => (hval s hs).imp (fun hs => ⟨s, hs, .refl s⟩) fun hs => ⟨hs.1, hs.2.2⟩)
    (fun s hs => (hdel s hs).imp (fun hs => ⟨s, hs, .refl s⟩) fun hs => ⟨hs.1, hs.2.2⟩)
    (fun s hs' hprimary => ?_) (fun s hs' hprimary u hu heq => ?_) (fun s hs' => ?_)
    h.staked.current_reward
  · rcases hnew s hs' with hold | ⟨hid, hof⟩
    · exact .inl ⟨s, hold, .refl s⟩
    refine .inr fun id hmem heq => ?_
    exact h.records.not_produced hT hs hstx (made_ne_nil hof hprimary) (heq.trans hid) hmem
  · have hu' := mem_utxosFrom hu
    rw [Nat.zero_add] at hu'
    exact ⟨heq.symm.trans hu'.1, hu'.2.2⟩
  · rcases hperiods.pending.mem_stakers.mp hs' with hs' | hs'
    · rcases hmval s hs' with hold | hnew
      · exact h.staked.pending_reward s (h.periods.pending.mem_stakers.mpr (.inl hold))
      · exact hnew.2.1
    rcases hmdel s hs' with hold | hnew
    · exact h.staked.pending_reward s (h.periods.pending.mem_stakers.mpr (.inr hold))
    · exact hnew.2.1

end

/-! ## Advancing the time -/

/-- A transaction that takes and makes nothing. -/
theorem records_idle (h : l.Valid b.ctx T) (hstx : stx ∈ T) {added : List UTXO}
    (hins : stx.unsigned.ins = []) (himported : stx.unsigned.imported = [])
    (htx : l'.chain.tx = Function.update l.chain.tx stx.id (some (stx, status)))
    (hutxo : l'.chain.utxo = (l.chain.addUTXOs added).utxo)
    (hproduced : l'.produced = l.produced ++ added.map UTXO.utxoID) (hmemory : l'.memory = l.memory)
    (hnodup : (added.map UTXO.utxoID).Nodup) (hfresh : ∀ u ∈ added, u.utxoID ∉ l.produced)
    (hsource : ∀ u ∈ added, ∃ t, l'.chain.tx u.utxoID.txID = some t) : l'.Records T := by
  have hnone : l.chain.deleteUTXOs [] = l.chain := by
    rw [Chain.deleteUTXOs]
    simp
  refine h.records.next hstx htx (by rw [hnone, hutxo]) hproduced (fun i hi => ?_) hnodup hfresh
    hsource (fun k => ?_) fun c id => ?_
  · rw [hins] at hi
    exact absurd hi not_mem_nil
  · rw [hmemory, himported]
    simp
  · rw [hmemory, himported]
    simp

/-- An advance of the time. -/
theorem advance (hT : Set.InjOn Tx.id T) (h : l.Valid b.ctx T) (hstx : stx ∈ T) {time : Nat}
    (hutx : stx.unsigned = .advanceTime time) {t : Time} {moved : List Staker} {supply : Nat}
    (hafter : l.chain.timestamp < t)
    (hchange : ∃ t', getNextStakerChangeTime l.chain = some t' ∧ t ≤ t')
    (hm : Moves l.chain t moved supply current pending) :
    (l.advance stx t supply current pending).Valid b.ctx T := by
  set l' := l.advance stx t supply current pending
  have hproduced : l'.produced = l.produced ++ ([] : List UTXO).map UTXO.utxoID :=
    (append_nil _).symm
  have hval : ∀ s, l'.chain.IsValidator s → ∃ s0, l.chain.IsValidator s0 ∧ s0.Same s := by
    rintro s (hs | hs)
    · rcases h.periods.advance_validator hchange hm hs with ⟨s0, hs0, -, hbecomes, -⟩ | ⟨hs, -⟩
      · exact ⟨s0, .inr hs0, hbecomes.same⟩
      · exact ⟨s, .inl hs, .refl s⟩
    · exact ⟨s, .inr ((hm.pending_validator s).mp hs).1, .refl s⟩
  have hdel : ∀ s, l'.chain.IsDelegator s → ∃ s0, l.chain.IsDelegator s0 ∧ s0.Same s := by
    rintro s (hs | hs)
    · rcases h.periods.advance_delegator hchange hm hs with ⟨s0, hs0, -, hbecomes, -⟩ | hs
      · exact ⟨s0, .inr hs0, hbecomes.same⟩
      · exact ⟨s, .inl hs, .refl s⟩
    · exact ⟨s, .inr ((hm.pending_delegator s).mp hs).1, .refl s⟩
  refine ⟨{ h.periods.advance hafter hchange hm with }, h.records_idle hstx (by rw [hutx]; rfl)
    (by rw [hutx]; rfl) rfl rfl hproduced rfl nodup_nil
    (fun u hu => absurd hu not_mem_nil) fun u hu => absurd hu not_mem_nil, ?_⟩
  refine h.staked.next hT h.records hstx rfl hproduced
    (fun s hs => .inl (hval s hs)) (fun s hs => .inl (hdel s hs)) (fun s hs _ => .inl ?_)
    (fun s _ _ u hu => absurd hu not_mem_nil) (fun s hs => ?_) fun s hs => ?_
  · rcases hs with hs | hs
    · exact (hval s hs).imp fun _ hs0 => ⟨.inl hs0.1, hs0.2⟩
    · exact (hdel s hs).imp fun _ hs0 => ⟨.inr hs0.1, hs0.2⟩
  · rcases hm.pending_coherent.mem_stakers.mp hs with hs | hs
    · exact h.staked.pending_reward s
        (h.periods.pending.mem_stakers.mpr (.inl ((hm.pending_validator s).mp hs).1))
    exact h.staked.pending_reward s
      (h.periods.pending.mem_stakers.mpr (.inr ((hm.pending_delegator s).mp hs).1))
  · have hmoved : ∀ s0, Becomes s0 s →
        s.potentialReward < 2 ^ 64 ∧ (s.subnetID ≠ primaryNetworkID → s.potentialReward = 0) :=
      fun s0 hbecomes => ⟨hbecomes.reward_lt, fun hne =>
        hbecomes.subnet (hbecomes.same.subnetID ▸ hne)⟩
    rcases hm.current_coherent.mem_stakers.mp hs with hs | hs
    · rcases h.periods.advance_validator hchange hm hs with ⟨s0, -, -, hbecomes, -⟩ | ⟨hs, -⟩
      · exact hmoved s0 hbecomes
      · exact h.staked.current_reward s (h.periods.current.mem_stakers.mpr (.inl hs))
    rcases h.periods.advance_delegator hchange hm hs with ⟨s0, -, -, hbecomes, -⟩ | hs
    · exact hmoved s0 hbecomes
    · exact h.staked.current_reward s (h.periods.current.mem_stakers.mpr (.inr hs))

/-! ## Retiring -/

section

variable (h : l.Valid b.ctx T) (hmem : s ∈ l.chain.current.stakers)

include h hmem

/-- The role of a current staker follows from its transaction. -/
theorem current_role (ht : l.chain.tx s.txID = some t) :
    l.chain.current.IsValidator s ∧ ValidatorOf b.ctx s t.1.unsigned ∨
      l.chain.current.IsDelegator s ∧ DelegatorOf b.ctx s t.1.unsigned := by
  obtain ⟨t', ht', hrole⟩ := h.staker_tx (.inl hmem)
  rw [ht] at ht'
  cases ht'
  -- the roles in the pending set are of other stakers
  have hnotPending : s ∉ l.chain.pending.stakers := fun hp => h.periods.different_txs s hmem s hp rfl
  refine hrole.imp (And.imp_left fun hval => hval.resolve_right fun hp => hnotPending ?_)
    (And.imp_left fun hdel => hdel.resolve_right fun hp => hnotPending ?_)
  · exact h.periods.pending.mem_stakers.mpr (.inl hp)
  · exact h.periods.pending.mem_stakers.mpr (.inr hp)

theorem isValidator_of_tx {tx : AddValidatorTx} (ht : l.chain.tx s.txID = some t)
    (htx : t.1.unsigned = .addValidator tx) :
    s.subnetID = primaryNetworkID ∧ l.chain.current.IsValidator s := by
  have hrole := h.current_role hmem ht
  rw [htx] at hrole
  rcases hrole with ⟨hval, hof⟩ | ⟨-, hof⟩
  · cases hof with
    | primary _ hs _ => exact ⟨hs.subnetID_eq, hval⟩
  · cases hof

theorem isDelegator_of_tx {tx : AddDelegatorTx} (ht : l.chain.tx s.txID = some t)
    (htx : t.1.unsigned = .addDelegator tx) :
    s.subnetID = primaryNetworkID ∧ l.chain.current.IsDelegator s := by
  have hrole := h.current_role hmem ht
  rw [htx] at hrole
  rcases hrole with ⟨-, hof⟩ | ⟨hdel, hof⟩
  · cases hof
  cases hof with
  | delegator _ hs _ => exact ⟨hs.subnetID_eq, hdel⟩

end

/-- The first current staker leaves the set it is in. -/
theorem retires_role (h : l.Valid b.ctx T) {rest : List Staker} {rewards : List UTXO}
    (hfirst : l.chain.current.stakers = s :: rest) (ht : l.chain.tx s.txID = some t)
    (hretires : Retires b.ctx l.chain s t.1.unsigned current rewards) :
    s.subnetID = primaryNetworkID ∧
      (l.chain.current.IsValidator s ∧ current = l.chain.current.deleteValidator s ∨
        l.chain.current.IsDelegator s ∧ current = l.chain.current.deleteDelegator s) := by
  have hmem : s ∈ l.chain.current.stakers := by
    rw [hfirst]
    exact mem_cons_self
  cases hretires with
  | validator tx htx =>
    obtain ⟨hprimary, hval⟩ := h.isValidator_of_tx hmem ht htx
    exact ⟨hprimary, .inl ⟨hval, rfl⟩⟩
  | delegator tx v vtx vdrTx htx hv hvtx hvdrTx =>
    obtain ⟨hprimary, hdel⟩ := h.isDelegator_of_tx hmem ht htx
    exact ⟨hprimary, .inr ⟨hdel, rfl⟩⟩

/-- The UTXOs for a staker that leaves have not been produced before. -/
theorem paid_fresh (h : l.Valid b.ctx T) {rest : List Staker} {rewards paid : List UTXO}
    (hfirst : l.chain.current.stakers = s :: rest) (ht : l.chain.tx s.txID = some t)
    (hretires : Retires b.ctx l.chain s t.1.unsigned current rewards)
    (hpaid : paid = refund b.ctx s.txID t.1.unsigned ∨
      paid = refund b.ctx s.txID t.1.unsigned ++ rewards) : ∀ u ∈ paid, u.utxoID ∉ l.produced := by
  intro u hu hmem
  obtain ⟨hprimary, hrole⟩ := h.retires_role hfirst ht hretires
  obtain ⟨hid, hle⟩ := (hretires.paid_ids hpaid).2 u hu
  refine absurd (h.staked.unproduced s ?_ hprimary t ht _ hmem hid) (not_lt.mpr hle)
  exact hrole.imp (fun hval => .inl hval.1) fun hdel => .inl hdel.1

/-- The first current staker leaves. -/
theorem retire (hT : Set.InjOn Tx.id T) (h : l.Valid b.ctx T) (hstx : stx ∈ T) {rest : List Staker}
    {rewards paid : List UTXO} {supply : Nat} (hutx : stx.unsigned = .rewardValidator s.txID)
    (hfirst : l.chain.current.stakers = s :: rest) (hend : s.endTime = l.chain.timestamp)
    (ht : l.chain.tx s.txID = some t)
    (hretires : Retires b.ctx l.chain s t.1.unsigned current rewards)
    (hpaid : paid = refund b.ctx s.txID t.1.unsigned ∨
      paid = refund b.ctx s.txID t.1.unsigned ++ rewards) :
    (l.retire stx status s current supply paid).Valid b.ctx T := by
  set l' := l.retire stx status s current supply paid
  have hmem : s ∈ l.chain.current.stakers := by
    rw [hfirst]
    exact mem_cons_self
  obtain ⟨hprimary, hrole⟩ := h.retires_role hfirst ht hretires
  obtain ⟨hnodup, hids⟩ := hretires.paid_ids hpaid
  have hperiods : ({ l.chain with current } : Chain).Periods := by
    rcases hrole with ⟨hval, rfl⟩ | ⟨hdel, rfl⟩
    · exact h.periods.retireValidator hval hprimary hfirst hend
    have hcurrent := h.periods.current
    exact h.periods.removeCurrent (hcurrent.deleteDelegator hdel) (fun _ hx => hx)
      (fun _ hx => ((hcurrent.isDelegator_deleteDelegator hdel).mp hx).1) fun _ _ _ _ hv => hv
  -- the stakers that remain
  have hvalidator : ∀ x, current.IsValidator x → l.chain.current.IsValidator x ∧ x ≠ s := by
    intro x hx
    rcases hrole with ⟨hval, rfl⟩ | ⟨hdel, rfl⟩
    · exact (Stakers.Coherent.isValidator_deleteValidator hval).mp hx
    refine ⟨hx, ?_⟩
    rintro rfl
    exact h.periods.current.exclusive hx hdel
  have hdelegator : ∀ x, current.IsDelegator x → l.chain.current.IsDelegator x ∧ x ≠ s := by
    intro x hx
    rcases hrole with ⟨hval, rfl⟩ | ⟨hdel, rfl⟩
    · refine ⟨hx, ?_⟩
      rintro rfl
      exact h.periods.current.exclusive hval hx
    · exact (h.periods.current.isDelegator_deleteDelegator hdel).mp hx
  have hval : ∀ x, l'.chain.IsValidator x → l.chain.IsValidator x ∧ x.txID ≠ s.txID := by
    rintro x (hx | hx)
    · obtain ⟨hx, hne⟩ := hvalidator x hx
      refine ⟨.inl hx, fun heq => hne ?_⟩
      exact h.periods.current.txID_inj (h.periods.current.mem_stakers.mpr (.inl hx)) hmem heq
    · exact ⟨.inr hx, fun heq =>
        h.periods.different_txs s hmem x (h.periods.pending.mem_stakers.mpr (.inl hx)) heq.symm⟩
  have hdel : ∀ x, l'.chain.IsDelegator x → l.chain.IsDelegator x ∧ x.txID ≠ s.txID := by
    rintro x (hx | hx)
    · obtain ⟨hx, hne⟩ := hdelegator x hx
      refine ⟨.inl hx, fun heq => hne ?_⟩
      exact h.periods.current.txID_inj (h.periods.current.mem_stakers.mpr (.inr hx)) hmem heq
    · exact ⟨.inr hx, fun heq =>
        h.periods.different_txs s hmem x (h.periods.pending.mem_stakers.mpr (.inr hx)) heq.symm⟩
  have hfresh := h.paid_fresh hfirst ht hretires hpaid
  refine ⟨{ hperiods with }, h.records_idle hstx (by rw [hutx]; rfl) (by rw [hutx]; rfl) rfl rfl rfl
    rfl hnodup hfresh fun u hu => ?_, ?_⟩
  · rw [(hids u hu).1]
    exact (h.records.tx_update hT hstx ht).imp fun _ => And.left
  · refine h.staked.next hT h.records hstx rfl rfl
      (fun x hx => .inl ⟨x, (hval x hx).1, .refl x⟩) (fun x hx => .inl ⟨x, (hdel x hx).1, .refl x⟩)
      (fun x hx _ => .inl ⟨x, hx.imp (fun hx => (hval x hx).1) fun hx => (hdel x hx).1, .refl x⟩)
      (fun x hx _ u hu heq => ?_) h.staked.pending_reward fun x hx => ?_
    · have hne : x.txID ≠ s.txID := hx.elim (fun hx => (hval x hx).2) fun hx => (hdel x hx).2
      exact absurd (heq.symm.trans (hids u hu).1) hne
    · refine h.staked.current_reward x (h.periods.current.mem_stakers.mpr ?_)
      exact (hperiods.current.mem_stakers.mp hx).imp (fun hx => (hvalidator x hx).1) fun hx => (hdelegator x hx).1

/-- Every transaction keeps the invariant. -/
theorem step (hT : Set.InjOn Tx.id T) (h : l.Valid b.ctx T) (hstx : stx ∈ T)
    (hstep : Step b l stx status l') : l'.Valid b.ctx T := by
  cases hstep with
  | spend _ hs hl' => exact .of_bare hl' (h.spend hT hs hstx)
  | enlist hs hpending hl' => exact .of_bare hl' (h.enlist hT hs hstx hpending)
  | advance time hutx hafter hchange hmoves hl' =>
    exact .of_bare hl' (h.advance hT hstx hutx hafter hchange hmoves)
  | retire _ hutx hfirst hend ht hsupply hretires hl' =>
    cases status with
    | committed => exact .of_bare hl' (h.retire hT hstx hutx hfirst hend ht hretires (.inr rfl))
    | aborted => exact .of_bare hl' (h.retire hT hstx hutx hfirst hend ht hretires (.inl rfl))

end Valid

end Ledger

end SavannahNode.PlatformVM
