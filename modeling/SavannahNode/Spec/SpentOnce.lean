import SavannahNode.Spec.StakerInvariant

/-!
# Nothing is spent twice

What a transaction of a branch takes, no other one takes (`spent_once`), whatever is executed,
rewarded and delivered in between.
-/

namespace SavannahNode.PlatformVM

open Except Ledger List

/-- Both transactions take the same UTXO, of this chain or of another. -/
def UnsignedTx.Share (tx tx' : UnsignedTx) : Prop :=
  (∃ i ∈ tx.ins, ∃ i' ∈ tx'.ins, i.utxoID = i'.utxoID) ∨ ∃ k ∈ tx.imported, k ∈ tx'.imported

theorem UnsignedTx.Share.symm {tx tx' : UnsignedTx} (h : tx.Share tx') : tx'.Share tx := by
  rcases h with ⟨i, hi, i', hi', heq⟩ | ⟨k, hk, hk'⟩
  · exact .inl ⟨i', hi', i, hi, heq.symm⟩
  · exact .inr ⟨k, hk', hk⟩

/-- Executed transactions that take the same UTXO are one transaction. -/
def Chain.Exclusive (c : Chain) : Prop := ∀ id t id' t', c.tx id = some t → c.tx id' = some t' →
  t.1.unsigned.Share t'.1.unsigned → id = id'

namespace Ledger

variable {b : Backend} {T : Set Tx} {l l' : Ledger} {stx : Tx} {status : TxStatus} {id : ID}
  {t : Tx × TxStatus}

theorem Records.not_share (h : l.Records T) (ht : l.chain.tx id = some t) (hs : Spends b l stx) :
    ¬t.1.unsigned.Share stx.unsigned := by
  rintro (⟨i, hi, i', hi', heq⟩ | ⟨k, hk, hk'⟩)
  · obtain ⟨u, hu⟩ := hs.live hi'
    rw [← heq, (h.spent id t ht i hi).2] at hu
    cases hu
  · obtain ⟨u, hu⟩ := hs.found hk'
    rw [h.taken k (h.imported id t ht k hk)] at hu
    cases hu

/-- What a transaction takes was not taken before. -/
theorem Step.not_share (h : l.Records T) (ht : l.chain.tx id = some t)
    (hstep : Step b l stx status l') : ¬t.1.unsigned.Share stx.unsigned := by
  rcases hstep.spends_or with hs | ⟨_, hutx⟩ | ⟨_, hutx⟩
  · exact h.not_share ht hs
  · simp [UnsignedTx.Share, hutx, UnsignedTx.ins, UnsignedTx.imported]
  · simp [UnsignedTx.Share, hutx, UnsignedTx.ins, UnsignedTx.imported]

theorem exclusive_step (h : l.chain.Exclusive) (hr : l.Records T)
    (hstep : Step b l stx status l') : l'.chain.Exclusive := by
  intro id t id' t' ht ht' hshare
  rw [hstep.tx_eq, Function.update_apply] at ht ht'
  split at ht <;> split at ht'
  · simp_all
  · cases ht
    exact absurd hshare.symm (hstep.not_share hr ht')
  · cases ht'
    exact absurd hshare (hstep.not_share hr ht)
  · exact h id t id' t' ht ht' hshare

end Ledger

/-- In every state that a branch reaches, no two transactions have taken the same UTXO, of this
    chain or of another, and nothing that was taken is in the UTXO set. -/
theorem spent_once {b : Backend} {T : Set Tx} {g : Genesis} {validators : Manager}
    {genesisBlk : Block} {s : State} {inbound : ID → UTXOID → Option UTXO} {ops : List BranchOp}
    {br : Branch} (hT : Set.InjOn Tx.id T) (hboot : b.bootstrapped = true)
    (hmin : 0 < b.config.minStakeDuration) (hg : g.WellFormed b.ctx T)
    (hgenesis : (State.empty validators).syncGenesis b genesisBlk g = .ok s)
    (hops : ∀ op ∈ ops, ∀ stx ∈ op.tx, stx ∈ T)
    (hrun : (Branch.genesis s inbound).run b ops = .ok br) :
    br.chain.Exclusive ∧
      ∀ id t, br.chain.tx id = some t → ∀ i ∈ t.1.unsigned.ins, br.chain.utxo i.utxoID = none := by
  have hinit : s.read.Exclusive := by
    intro id t _ _ ht _ hshare
    obtain ⟨-, hmem, himported⟩ := (hg.loaded hT hgenesis).recorded id t ht
    simp [UnsignedTx.Share, (hg.txs _ hmem).2.2, himported] at hshare
  obtain ⟨produced, hv, hexclusive⟩ := Branch.run_rule (I := fun l => l.chain.Exclusive) hT hboot
    hmin (fun l l' stx status hv hI _ => exclusive_step hI hv.records) (fun _ _ _ hI => hI)
    (hg.valid hT hgenesis inbound) hinit hops hrun
  exact ⟨hexclusive, fun id t ht i hi => (hv.records.spent id t ht i hi).2⟩

open SmallNetwork in
/-- The second transaction spends the change of the first. -/
theorem spent_once_delegation : ∃ br, after genesis (delegation 300) = .ok br ∧
    (∀ id ∈ [⟨4⟩, ⟨5⟩], ∃ t, br.chain.tx id = some t ∧ t.1.unsigned.ins ≠ [] ∧
      ∀ i ∈ t.1.unsigned.ins, br.chain.utxo i.utxoID = none) ∧ br.chain.Exclusive := by
  have hobserved : (after genesis (delegation 300)).toOption.map (fun br =>
      [⟨4⟩, ⟨5⟩].map fun id => (br.chain.tx id).map (·.1.unsigned.ins.length)) =
      some [some 1, some 1] := by decide +kernel
  obtain ⟨br, hbr, hins⟩ := exists_of_observed hobserved
  obtain ⟨s, hs, hrun⟩ := bind_eq_ok.mp hbr
  obtain ⟨hexclusive, hgone⟩ :=
    spent_once txs_injOn rfl (by decide) genesis_wellFormed hs delegation_txs hrun
  obtain ⟨hfirst, hsecond⟩ := cons.inj hins
  have hspends : ∀ id, (br.chain.tx id).map (·.1.unsigned.ins.length) = some 1 →
      ∃ t, br.chain.tx id = some t ∧ t.1.unsigned.ins ≠ [] ∧
        ∀ i ∈ t.1.unsigned.ins, br.chain.utxo i.utxoID = none := by
    intro id hid
    obtain ⟨t, ht, hone⟩ := Option.map_eq_some_iff.mp hid
    exact ⟨t, ht, ne_nil_of_length_eq_add_one hone, hgone id t ht⟩
  refine ⟨br, hbr, forall_mem_cons.mpr ⟨hspends _ hfirst, ?_⟩, hexclusive⟩
  exact forall_mem_singleton.mpr (hspends _ (cons.inj hsecond).1)

end SavannahNode.PlatformVM
