import SavannahNode.Spec.LedgerValid

/-!
# Executing a transaction is a step of the ledger

If an executor returns for a transaction, the state that is read through the diff it
returns is the state after a step of the ledger. The checks of the executors become the
conditions of the step.

## Key results

* `standardTx_step`, `addValidatorTx_step`, … — the executors on a bootstrapped node.
-/

namespace SavannahNode.PlatformVM

open Except Ledger List UnsignedTx TransferableOutput

/-! ## Syntactic checks -/

theorem TransferableOutput.amount_pos {o : TransferableOutput} (h : o.verify = .ok ()) :
    0 < o.out.amount := by
  simp only [verify, Output.verify, TransferOutput.verify, then_eq_ok, failIf_eq_ok] at h
  exact Nat.pos_of_ne_zero h.2.2.1

/-- `UTXOID.less` is the order of pairs. -/
theorem UTXOID.less_iff (a b : UTXOID) :
    a.less b = true ↔ toLex (a.txID.toNat, a.outputIndex) < toLex (b.txID.toNat, b.outputIndex) := by
  rw [Prod.Lex.toLex_lt_toLex, less, OrderedList.lexicographic_iff, decide_eq_true_eq]

/-- Sorted and unique inputs are different. -/
theorem nodup_of_isSortedAndUnique {ins : List TransferableInput} (h : isSortedAndUniqueInputs ins) :
    (ins.map (·.utxoID)).Nodup := by
  have htrans : IsTrans TransferableInput fun a b => a.utxoID.less b.utxoID = true := by
    refine ⟨fun a b c hab hbc => ?_⟩
    rw [UTXOID.less_iff] at hab hbc ⊢
    exact hab.trans hbc
  rw [isSortedAndUniqueInputs, isChain_iff_pairwise] at h
  refine pairwise_map.mpr (h.imp fun hab heq => ?_)
  rw [UTXOID.less_iff, heq] at hab
  exact lt_irrefl _ hab

variable {ctx : Context} {stx : Tx} {utx : UnsignedTx} {b : Backend} {l : Ledger}

/-- What the check of the base of a transaction guarantees. -/
theorem BaseTx.syntacticVerify_ok {tx : BaseTx} (h : tx.syntacticVerify ctx = .ok ()) :
    (∀ o ∈ tx.outs, 0 < o.out.amount) ∧ (tx.ins.map (·.utxoID)).Nodup := by
  simp only [syntacticVerify, then_eq_ok, failIf_eq_ok, not_not] at h
  obtain ⟨-, -, -, houts, -, -, hsorted⟩ := h
  exact ⟨fun o ho => amount_pos (forM_eq_ok.mp houts o ho),
    nodup_of_isSortedAndUnique hsorted⟩

/-- What the check of a stake guarantees. -/
theorem verifyStake_ok {v : Validator} {stake : List TransferableOutput} {owner : OutputOwners}
    (hv : v.verify = .ok ()) (howner : owner.verify = .ok ()) (h : verifyStake ctx v stake = .ok ()) :
    Stakes ctx v stake owner ∧ ∀ o ∈ stake, 0 < o.out.amount := by
  simp only [verifyStake, bind_eq_ok, exists_unit, failIf_eq_ok, not_not] at h
  obtain ⟨total, htotal, -, hweight⟩ := h
  obtain ⟨hall, hsum⟩ := foldlM_ok_history
    (P := fun done n => (∀ o ∈ done, 0 < o.out.amount ∧ o.assetID = ctx.avaxAssetID) ∧
      n = (done.map (·.out.amount)).sum)
    htotal ⟨fun o ho => absurd ho not_mem_nil, rfl⟩ (by
      rintro done o rest n n' - ⟨hdone, hn⟩ hn'
      simp only [bind_eq_ok, exists_unit, failIf_eq_ok, not_not, ofOption_eq_ok, ok.injEq] at hn'
      obtain ⟨hverify, sum, hadd, hasset, rfl⟩ := hn'
      refine ⟨fun o' ho' => ?_, ?_⟩
      · rcases mem_append.mp ho' with ho' | ho'
        · exact hdone o' ho'
        rw [mem_singleton.mp ho']
        exact ⟨amount_pos hverify, hasset⟩
      · rw [add64_eq_some hadd, hn]
        simp)
  exact ⟨⟨fun o ho => (hall o ho).2, by rw [← hweight, hsum],
    Nat.pos_of_ne_zero (failIf_eq_ok.mp hv), howner⟩,
    fun o ho => (hall o ho).1⟩

theorem Tx.syntacticVerify_ok (hutx : stx.unsigned = utx) (h : stx.syntacticVerify ctx = .ok ()) :
    stx.id ≠ ID.empty ∧ utx.syntacticVerify ctx = .ok () := by
  subst hutx
  obtain ⟨hid, h⟩ := then_eq_ok.mp h
  exact ⟨failIf_eq_ok.mp hid, h⟩

/-! ## Spending -/

/-- A transaction without imports that passes the flow check. -/
theorem Ledger.Spends.of_verifySpend {clk : Time} {outs : List TransferableOutput}
    {creds : List Credential} {fee : Nat} (hutx : stx.unsigned = utx) (hid : stx.id ≠ ID.empty)
    (hreward : utx.rewards = none) (himported : utx.imported = []) (hmade : utx.made = outs)
    (hfee : utx.fee b.config l.chain.timestamp = fee) (hnodup : (utx.ins.map (·.utxoID)).Nodup)
    (hshares : ∀ tx, utx = .addValidator tx → tx.shares ≤ percentDenominator)
    (hpos : ∀ o ∈ outs, 0 < o.out.amount)
    (h : verifySpend b.fx clk stx.unsigned l.chain.utxo utx.ins outs creds
      [(b.ctx.avaxAssetID, fee)] = .ok ()) : Spends b l stx := by
  subst hutx hmade hfee
  obtain ⟨utxos, hutxos, h⟩ := bind_eq_ok.mp h
  refine ⟨hreward, fun _ => hid, hnodup, himported ▸ nodup_nil, hshares, hpos, utxos, [],
    lookups_ok hutxos, ?_, ?_⟩
  · rw [himported]
    exact .nil
  · rw [append_nil]
    exact (verifySpendUTXOs_balanced (by exact nodup_singleton b.ctx.avaxAssetID) h).2

/-- The diff presents the state after a step of the ledger. -/
def Executes (b : Backend) (l : Ledger) (p : Chain) (stx : Tx) (status : TxStatus) (d : Diff) :
    Prop :=
  ∃ l', (d.addTx stx status).Reads p l'.chain ∧ Step b l stx status l'

/-- A diff that consumes the inputs and produces the outputs. -/
theorem Executes.spend {p c' : Chain} {status : TxStatus} {outs : List TransferableOutput}
    {d : Diff} (hutx : stx.unsigned = utx) (hs : Spends b l stx)
    (houts : utx.outs ++ utx.stake = outs) (hd : d.Reads p c')
    (hc' : c'.bare = ((l.chain.deleteUTXOs (utx.ins.map (·.utxoID))).addUTXOs
      (utxosFrom stx.id 0 outs)).bare) :
    Executes b l p stx status d := by
  subst hutx houts
  refine ⟨{ l.spend stx status (stx.unsigned.outs ++ stx.unsigned.stake) l.chain.pending with
    chain := c'.addTx stx status }, hd.addTx stx status, .spend status hs ?_⟩
  have hbare : (c'.addTx stx status).bare = c'.bare.addTx stx status := rfl
  rw [Ledger.bare, hbare, hc']
  rfl

section Standard

variable {b : Backend} {env : Env} {p : Chain} {d : Diff} {l : Ledger} {stx : Tx} {e : Execution}

/-- What `StandardTxExecutor` returns. -/
structure StandardStep (b : Backend) (l : Ledger) (p : Chain) (stx : Tx) (e : Execution) : Prop where
  executes : Executes b l p stx .committed e.state
  inputs : e.inputs = stx.unsigned.imported.map Prod.snd
  requests : e.atomicRequests = stx.unsigned.requests stx.id

theorem createChainTx_step {tx : CreateChainTx} (hutx : stx.unsigned = .createChain tx)
    (hd : d.Reads p l.chain) (h : createChainTx b env p d stx tx = .ok e) :
    StandardStep b l p stx e := by
  simp only [createChainTx, bind_eq_ok, exists_unit, ok.injEq] at h
  obtain ⟨hverify, -, -, hspend, -, -, -, rfl⟩ := h
  obtain ⟨hid, hverify⟩ := Tx.syntacticVerify_ok hutx hverify
  simp only [syntacticVerify, CreateChainTx.syntacticVerify, then_eq_ok] at hverify
  obtain ⟨-, -, -, -, -, -, hbase, -⟩ := hverify
  obtain ⟨hpos, hnodup⟩ := BaseTx.syntacticVerify_ok hbase
  rw [hd.read_eq] at hspend
  have hs : Spends b l stx :=
    .of_verifySpend hutx hid rfl rfl (append_nil _) rfl hnodup (by simp) hpos hspend
  have hd' := ((hd.consume tx.base.ins).produce stx.id tx.base.outs).addChain stx tx.subnetID
  exact ⟨.spend hutx hs (append_nil _) hd' rfl, by rw [hutx]; rfl, by rw [hutx]; rfl⟩

theorem createSubnetTx_step {tx : CreateSubnetTx} (hutx : stx.unsigned = .createSubnet tx)
    (hd : d.Reads p l.chain) (h : createSubnetTx b env p d stx tx = .ok e) :
    StandardStep b l p stx e := by
  simp only [createSubnetTx, then_eq_ok, ok.injEq] at h
  obtain ⟨hverify, hspend, rfl⟩ := h
  obtain ⟨hid, hverify⟩ := Tx.syntacticVerify_ok hutx hverify
  obtain ⟨hbase, -⟩ := then_eq_ok.mp hverify
  obtain ⟨hpos, hnodup⟩ := BaseTx.syntacticVerify_ok hbase
  rw [hd.read_eq] at hspend
  have hs : Spends b l stx :=
    .of_verifySpend hutx hid rfl rfl (append_nil _) rfl hnodup (by simp) hpos hspend
  have hd' := ((hd.consume tx.base.ins).produce stx.id tx.base.outs).addSubnet stx
  exact ⟨.spend hutx hs (append_nil _) hd' rfl, by rw [hutx]; rfl, by rw [hutx]; rfl⟩

theorem importTx_step {tx : ImportTx} (hboot : b.bootstrapped = true)
    (hutx : stx.unsigned = .importTx tx) (hd : d.Reads p l.chain)
    (hmemory : ∀ k ∈ stx.unsigned.imported, env.memory k.1 k.2 = l.memory.inbound k.1 k.2)
    (h : importTx b env p d stx tx = .ok e) : StandardStep b l p stx e := by
  simp only [importTx, then_eq_ok, ok.injEq] at h
  obtain ⟨hverify, -, himport, rfl⟩ := h
  obtain ⟨hid, hverify⟩ := Tx.syntacticVerify_ok hutx hverify
  simp only [syntacticVerify, ImportTx.syntacticVerify, then_eq_ok,
    failIf_eq_ok, not_not] at hverify
  obtain ⟨-, hbase, -, hsorted⟩ := hverify
  have hsorted := nodup_of_isSortedAndUnique hsorted
  obtain ⟨hpos, hnodup⟩ := BaseTx.syntacticVerify_ok hbase
  have himported : stx.unsigned.imported =
      tx.importedInputs.map fun input => (tx.sourceChain, input.utxoID) := by
    rw [hutx]
    rfl
  simp only [onlyIf_eq_ok hboot, verifyImport, bind_eq_ok, exists_unit] at himport
  obtain ⟨-, allUTXOs, hall, utxos, hutxos, himport⟩ := himport
  rw [hd.read_eq] at hutxos
  have hmade : stx.unsigned.made = tx.base.outs := by
    rw [hutx]
    exact append_nil _
  have hs : Spends b l stx := by
    refine ⟨by rw [hutx]; rfl, fun _ => hid, by rw [hutx]; exact hnodup, ?_, by simp [hutx],
      by rw [hmade]; exact hpos, utxos, allUTXOs, ?_, ?_, ?_⟩
    · rw [himported]
      refine pairwise_map.mpr ((pairwise_map.mp hsorted).imp fun hne heq => hne ?_)
      exact congrArg Prod.snd heq
    · rw [hutx]
      exact lookups_ok hutxos
    · rw [himported, forall₂_map_left_iff]
      refine forall₂_iff_zip.mpr ⟨(lookups_ok hall).length_eq, fun {i u} hmem => ?_⟩
      have hk : (tx.sourceChain, i.utxoID) ∈ stx.unsigned.imported := by
        rw [himported]
        exact mem_map_of_mem (f := fun input : TransferableInput => (tx.sourceChain, input.utxoID))
          (of_mem_zip hmem).1
      rw [← hmemory _ hk]
      exact (forall₂_iff_zip.mp (lookups_ok hall)).2 hmem
    · rw [hmade, hutx]
      exact (verifySpendUTXOs_balanced (by exact nodup_singleton b.ctx.avaxAssetID) himport).2
  have hd' := (hd.consume tx.base.ins).produce stx.id tx.base.outs
  refine ⟨.spend hutx hs (append_nil _) hd' rfl, ?_, by rw [hutx]; rfl⟩
  rw [himported, map_map]
  rfl

theorem exportTx_step {tx : ExportTx} (hutx : stx.unsigned = .exportTx tx)
    (hd : d.Reads p l.chain) (h : exportTx b env p d stx tx = .ok e) : StandardStep b l p stx e := by
  simp only [exportTx, then_eq_ok, ok.injEq] at h
  obtain ⟨hverify, -, hspend, rfl⟩ := h
  obtain ⟨hid, hverify⟩ := Tx.syntacticVerify_ok hutx hverify
  simp only [syntacticVerify, ExportTx.syntacticVerify, then_eq_ok] at hverify
  obtain ⟨-, hbase, hexported, -⟩ := hverify
  obtain ⟨hpos, hnodup⟩ := BaseTx.syntacticVerify_ok hbase
  have hposExported : ∀ o ∈ tx.exportedOutputs, 0 < o.out.amount := by
    intro o ho
    obtain ⟨ho, -⟩ := then_eq_ok.mp (forM_eq_ok.mp hexported o ho)
    exact amount_pos ho
  have hposAll := forall_mem_append.mpr ⟨hpos, hposExported⟩
  rw [hd.read_eq] at hspend
  have hs : Spends b l stx := .of_verifySpend hutx hid rfl rfl rfl rfl hnodup (by simp) hposAll hspend
  have hd' := (hd.consume tx.base.ins).produce stx.id tx.base.outs
  exact ⟨.spend hutx hs (append_nil _) hd' rfl, by rw [hutx]; rfl, by rw [hutx]; rfl⟩

/-- `StandardTxExecutor` on a bootstrapped node. -/
theorem standardTx_step (hboot : b.bootstrapped = true) (hd : d.Reads p l.chain)
    (hmemory : ∀ k ∈ stx.unsigned.imported, env.memory k.1 k.2 = l.memory.inbound k.1 k.2)
    (h : standardTx b env p d stx = .ok e) : StandardStep b l p stx e := by
  rw [standardTx] at h
  split at h
  · exact createChainTx_step ‹_› hd h
  · exact createSubnetTx_step ‹_› hd h
  · exact importTx_step hboot ‹_› hd hmemory h
  · exact exportTx_step ‹_› hd h
  · cases h

end Standard

/-! ## Proposals that add a staker -/

/-- A period that is long enough is a period. -/
theorem Validator.period {v : Validator} (hmin : 0 < b.config.minStakeDuration)
    (h : verifyDuration b v = .ok ()) : v.startTime < v.endTime := by
  obtain ⟨h, -⟩ := then_eq_ok.mp h
  have hle := not_lt.mp (failIf_eq_ok.mp h)
  have hpos := lt_of_lt_of_le hmin hle
  rcases lt_max_iff.mp hpos with hneg | hpos
  · exact absurd hneg (by decide)
  · exact Int.lt_of_sub_pos (lt_min_iff.mp hpos).2

/-- A diff that also enlists a staker. -/
theorem Executes.enlist {p c' : Chain} {pending : Stakers} {d : Diff} (hutx : stx.unsigned = utx)
    (hs : Spends b l stx) (he : Enlists b l.chain stx pending) (hd : d.Reads p c') (hc' : c'.bare =
      ({ (l.chain.deleteUTXOs (utx.ins.map (·.utxoID))).addUTXOs
          (utxosFrom stx.id 0 utx.outs) with pending } : Chain).bare) :
    Executes b l p stx .committed d := by
  subst hutx
  refine ⟨{ l.spend stx .committed stx.unsigned.outs pending with
    chain := c'.addTx stx .committed }, hd.addTx stx .committed, .enlist hs he ?_⟩
  have hbare : (c'.addTx stx .committed).bare = c'.bare.addTx stx .committed := rfl
  rw [Ledger.bare, hbare, hc']
  rfl

section Proposal

variable {b : Backend} {env : Env} {T : Set Tx} {l : Ledger} {stx : Tx} {parentID : ID}
  {p : Proposal}

/-- What `ProposalTxExecutor` returns: a diff for each outcome. -/
structure ProposalStep (b : Backend) (l : Ledger) (stx : Tx) (p : Proposal) : Prop where
  commit : Executes b l l.chain stx .committed p.onCommit
  abort : Executes b l l.chain stx .aborted p.onAbort

section

variable (hT : Set.InjOn Tx.id T) (hboot : b.bootstrapped = true)
  (hmin : 0 < b.config.minStakeDuration) (hv : l.Valid b.ctx T) (hstx : stx ∈ T)

include hT hboot hmin hv hstx

theorem addValidatorTx_step {tx : AddValidatorTx} (hutx : stx.unsigned = .addValidator tx)
    (h : addValidatorTx b env parentID (some l.chain) stx tx = .ok p) : ProposalStep b l stx p := by
  simp only [addValidatorTx, bind_eq_ok, exists_unit, failIf_eq_ok, not_lt, ok.injEq] at h
  obtain ⟨hverify, hminStake, hmaxStake, -, hduration, c, hc, -, hsem, rfl⟩ := h
  cases hc
  obtain ⟨hid, hverify⟩ := Tx.syntacticVerify_ok hutx hverify
  simp only [syntacticVerify, AddValidatorTx.syntacticVerify, then_eq_ok] at hverify
  obtain ⟨hshares, hbase, hvalidator, howner, hstake⟩ := hverify
  obtain ⟨hpos, hnodup⟩ := BaseTx.syntacticVerify_ok hbase
  obtain ⟨hstakes, hposStake⟩ := verifyStake_ok hvalidator howner hstake
  simp only [onlyIf_eq_ok hboot, verifyAddValidator, verifyStartTime, then_eq_ok,
    failIf_eq_ok, not_not] at hsem
  obtain ⟨hstart, hfree, hspend, -⟩ := hsem
  have hfree := Option.not_isSome_iff_eq_none.mp hfree
  have hposAll := forall_mem_append.mpr ⟨hpos, hposStake⟩
  have hmade : (addValidator tx).made = tx.base.outs ++ tx.stake := congrArg _ (append_nil tx.stake)
  have hs : Spends b l stx := .of_verifySpend hutx hid rfl rfl hmade rfl hnodup (fun tx' htx' => by
    cases htx'
    exact not_lt.mp (failIf_eq_ok.mp hshares)) hposAll hspend
  have he := Enlists.validator tx hutx hstakes hminStake hmaxStake hstart
    (Validator.period hmin hduration) hfree
  obtain ⟨hcurrentLacks, hpendingLacks⟩ := hv.lacks_of_enlists hT hs hstx he
  obtain ⟨-, hnone⟩ := Chain.getValidator_eq_none (by rw [hfree]; exact Bool.noConfusion)
  have hnew := (Diff.Reads.new hv.periods.current hv.periods.pending parentID).consume tx.base.ins
  have hd := hnew.produce stx.id tx.base.outs
  exact ⟨.enlist hutx hs he (hd.updatePending
      (hd.pending.putValidator hv.periods.pending hnone hpendingLacks hnone hpendingLacks)) rfl,
    .spend hutx hs rfl (hnew.produce stx.id (tx.base.outs ++ tx.stake)) rfl⟩

theorem addSubnetValidatorTx_step {tx : AddSubnetValidatorTx} (hutx : stx.unsigned = .addSubnetValidator tx)
    (h : addSubnetValidatorTx b env parentID (some l.chain) stx tx = .ok p) :
    ProposalStep b l stx p := by
  simp only [addSubnetValidatorTx, bind_eq_ok, exists_unit, ok.injEq] at h
  obtain ⟨hverify, hduration, subnetCred, -, c, hc, hsem, rfl⟩ := h
  cases hc
  obtain ⟨hid, hverify⟩ := Tx.syntacticVerify_ok hutx hverify
  simp only [syntacticVerify, AddSubnetValidatorTx.syntacticVerify, then_eq_ok,
    failIf_eq_ok] at hverify
  obtain ⟨hbase, hsubnet, -⟩ := hverify
  obtain ⟨hpos, hnodup⟩ := BaseTx.syntacticVerify_ok hbase
  simp only [onlyIf_eq_ok hboot, verifyAddSubnetValidator, verifyStartTime, bind_eq_ok,
    exists_unit, failIf_eq_ok, ofOption_eq_ok, not_not] at hsem
  obtain ⟨hstart, hfree, v, hprimary, hbounded, -, -, -, hspend, -⟩ := hsem
  have hfree := Option.not_isSome_iff_eq_none.mp hfree
  have hs : Spends b l stx :=
    .of_verifySpend hutx hid rfl rfl (append_nil _) rfl hnodup (by simp) hpos hspend
  have he := Enlists.subnetValidator (b := b) tx v hutx hsubnet hstart
    (Validator.period hmin hduration) hfree hprimary ⟨not_lt.mp hbounded.1, not_lt.mp hbounded.2⟩
  obtain ⟨hcurrentLacks, hpendingLacks⟩ := hv.lacks_of_enlists hT hs hstx he
  obtain ⟨-, hnone⟩ := Chain.getValidator_eq_none (by rw [hfree]; exact Bool.noConfusion)
  have hd := ((Diff.Reads.new hv.periods.current hv.periods.pending parentID).consume
    tx.base.ins).produce stx.id tx.base.outs
  exact ⟨.enlist hutx hs he (hd.updatePending
      (hd.pending.putValidator hv.periods.pending hnone hpendingLacks hnone hpendingLacks)) rfl,
    .spend hutx hs (append_nil _) hd rfl⟩

theorem addDelegatorTx_step {tx : AddDelegatorTx} (hutx : stx.unsigned = .addDelegator tx)
    (h : addDelegatorTx b env parentID (some l.chain) stx tx = .ok p) : ProposalStep b l stx p := by
  simp only [addDelegatorTx, bind_eq_ok, exists_unit, ok.injEq] at h
  obtain ⟨hverify, hduration, -, c, hc, hsem, rfl⟩ := h
  cases hc
  obtain ⟨hid, hverify⟩ := Tx.syntacticVerify_ok hutx hverify
  simp only [syntacticVerify, AddDelegatorTx.syntacticVerify, then_eq_ok] at hverify
  obtain ⟨hbase, hvalidator, howner, hstake⟩ := hverify
  obtain ⟨hpos, hnodup⟩ := BaseTx.syntacticVerify_ok hbase
  obtain ⟨hstakes, hposStake⟩ := verifyStake_ok hvalidator howner hstake
  simp only [onlyIf_eq_ok hboot, verifyAddDelegator, verifyStartTime, bind_eq_ok,
    exists_unit, failIf_eq_ok, ofOption_eq_ok, not_not] at hsem
  obtain ⟨hstart, v, hprimary, factored, hfactored, can, hcan, hyes, hspend, -⟩ := hsem
  have hlimit : maximumWeight b l.chain v = some (if ¬l.chain.timestamp < b.config.apricotPhase3Time
      then min factored b.config.maxValidatorStake else factored) := by
    rw [maximumWeight, hfactored]
    rfl
  obtain rfl : can = true := Bool.not_eq_false _ ▸ hyes
  have hposAll := forall_mem_append.mpr ⟨hpos, hposStake⟩
  have hmade : (addDelegator tx).made = tx.base.outs ++ tx.stake := congrArg _ (append_nil tx.stake)
  have hs : Spends b l stx :=
    .of_verifySpend hutx hid rfl rfl hmade rfl hnodup (by simp) hposAll hspend
  have he := Enlists.delegator tx v _ hutx hstakes hstart (Validator.period hmin hduration) hprimary
    hlimit hcan
  obtain ⟨hcurrentLacks, hpendingLacks⟩ := hv.lacks_of_enlists hT hs hstx he
  have hnew := (Diff.Reads.new hv.periods.current hv.periods.pending parentID).consume tx.base.ins
  have hd := hnew.produce stx.id tx.base.outs
  exact ⟨.enlist hutx hs he (hd.updatePending
      (hd.pending.putDelegator hv.periods.pending hpendingLacks hpendingLacks)) rfl,
    .spend hutx hs rfl (hnew.produce stx.id (tx.base.outs ++ tx.stake)) rfl⟩

end

end Proposal

end SavannahNode.PlatformVM
