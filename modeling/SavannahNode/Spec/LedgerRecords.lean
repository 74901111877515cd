import SavannahNode.Spec.Ledger

/-!
# What the ledger has recorded

No UTXO ID is produced twice. The argument needs the transactions that were executed: a
transaction that makes an output takes an input, what it takes is gone for good, and so it
cannot be executed again. Transaction IDs are hashes, and the transactions of a branch are
taken from a set on which they do not collide.

## Key results

* `Ledger.Records` — the invariant, and `Ledger.Records.next` — one transaction keeps it.
* `Ledger.Records.not_recorded` — a transaction that makes an output has not been executed.
-/

namespace SavannahNode.PlatformVM

open Function List

/-! ## Serving shared memory -/

namespace SharedMemory

/-- Take distinct UTXOs that are all there. -/
theorem remove_all {m : SharedMemory} {chainID : ID} {ids : List UTXOID} {utxos : List UTXO}
    (hnodup : ids.Nodup)
    (hfound : List.Forall₂ (fun id u => m.inbound chainID id = some u) ids utxos) :
    ids.foldl (fun m id => m.remove chainID id) m = { m with
        inbound := fun c id => if c = chainID ∧ id ∈ ids then none else m.inbound c id
        taken := m.taken ++ (ids.zip utxos).map fun p => ((chainID, p.1), p.2) } := by
  induction ids generalizing m utxos with
  | nil => simp
  | cons id ids ih =>
    obtain ⟨u, utxos, hid, hrest, rfl⟩ := forall₂_cons_left_iff.mp hfound
    rw [nodup_cons] at hnodup
    have hinbound : ∀ c k, (m.remove chainID id).inbound c k =
        if c = chainID ∧ k = id then none else m.inbound c k := by
      intro c k
      rw [remove]
      by_cases hc : c = chainID
      · subst hc
        by_cases hk : k = id
        · subst hk
          simp
        · simp [hk]
      · simp [hc]
    have htaken : (m.remove chainID id).taken = m.taken ++ [((chainID, id), u)] := by
      rw [remove, hid]
      rfl
    have hrest' : List.Forall₂ (fun k u => (m.remove chainID id).inbound chainID k = some u)
        ids utxos := by
      refine forall₂_iff_zip.mpr ⟨hrest.length_eq, fun {k u} hmem => ?_⟩
      have hne : k ≠ id := by
        rintro rfl
        exact hnodup.1 (of_mem_zip hmem).1
      rw [hinbound, if_neg fun h => hne h.2]
      exact (forall₂_iff_zip.mp hrest).2 hmem
    rw [foldl_cons, ih hnodup.2 hrest', htaken]
    have hputs : (m.remove chainID id).puts = m.puts := rfl
    simp only [hputs, SharedMemory.mk.injEq, zip_cons_cons, map_cons, append_assoc,
      cons_append, nil_append, and_true]
    funext c k
    rw [hinbound]
    by_cases hc : c = chainID
    · by_cases hk : k = id
      · simp [hc, hk]
      · simp [hc, hk]
    · simp [hc]

/-- The chains and keys of the UTXOs that were imported. -/
def takenKeys (m : SharedMemory) : List (ID × UTXOID) := m.taken.map Prod.fst

end SharedMemory

/-- The UTXOs a transaction puts into shared memory, with their chain. -/
def UnsignedTx.puts (txID : ID) : UnsignedTx → List (ID × UTXO)
  | .exportTx tx =>
    (utxosFrom txID tx.base.outs.length tx.exportedOutputs).map fun u => (tx.destinationChain, u)
  | _ => []

/-- The requests of a transaction whose imports are all there. -/
theorem SharedMemory.serve_requests {m : SharedMemory} {utx : UnsignedTx} {utxos : List UTXO}
    (hnodup : utx.imported.Nodup)
    (hfound : List.Forall₂ (fun k u => m.inbound k.1 k.2 = some u) utx.imported utxos) (txID : ID) :
    m.serve (utx.requests txID) =
      { inbound := fun c id => if (c, id) ∈ utx.imported then none else m.inbound c id
        puts := m.puts ++ utx.puts txID
        taken := m.taken ++ utx.imported.zip utxos } := by
  have hother : utx.imported = [] → utx.puts txID = [] → m.serve (utx.requests txID) = m →
      m.serve (utx.requests txID) =
        { inbound := fun c id => if (c, id) ∈ utx.imported then none else m.inbound c id
          puts := m.puts ++ utx.puts txID
          taken := m.taken ++ utx.imported.zip utxos } := by
    intro himported hputs heq
    rw [heq, himported, hputs]
    simp
  cases utx with
  | importTx tx =>
    have himported : (UnsignedTx.importTx tx).imported =
        (tx.importedInputs.map (·.utxoID)).map fun id => (tx.sourceChain, id) := by
      rw [map_map]
      rfl
    rw [himported] at hnodup hfound ⊢
    rw [forall₂_map_left_iff] at hfound
    have hremove := remove_all (List.Nodup.of_map _ hnodup) hfound
    show m.applyRequests tx.sourceChain _ = _
    rw [applyRequests]
    rw [hremove]
    simp only [UnsignedTx.puts, map_nil, append_nil, SharedMemory.mk.injEq, true_and]
    refine ⟨?_, by simp only [zip_map_left, map_map]; rfl⟩
    funext c id
    congr 1
    simp only [eq_iff_iff]
    constructor
    · rintro ⟨rfl, h⟩
      exact mem_map_of_mem h
    intro h
    obtain ⟨id', hid, heq⟩ := mem_map.mp h
    cases heq
    exact ⟨rfl, hid⟩
  | exportTx tx =>
    show m.applyRequests tx.destinationChain _ = _
    simp [SharedMemory.applyRequests, UnsignedTx.puts, UnsignedTx.imported]
  | _ => exact hother rfl rfl rfl

namespace Ledger

/-! ## Records -/

/-- What has been executed and produced. The transactions are from the set `T`. -/
structure Records (T : Set Tx) (l : Ledger) : Prop where
  tx_id : ∀ id t, l.chain.tx id = some t → t.1.id = id ∧ t.1 ∈ T
  live : ∀ id u, l.chain.utxo id = some u → u.utxoID = id ∧ id ∈ l.produced
  spent : ∀ id t, l.chain.tx id = some t → ∀ i ∈ t.1.unsigned.ins,
    i.utxoID ∈ l.produced ∧ l.chain.utxo i.utxoID = none
  imported : ∀ id t, l.chain.tx id = some t → ∀ k ∈ t.1.unsigned.imported, k ∈ l.memory.takenKeys
  taken : ∀ k ∈ l.memory.takenKeys, l.memory.inbound k.1 k.2 = none
  source : ∀ id ∈ l.produced, id.txID = ID.empty ∨ ∃ t, l.chain.tx id.txID = some t
  nodup : l.produced.Nodup

namespace Spends

variable {b : Backend} {l : Ledger} {stx : Tx}

theorem live (h : Spends b l stx) {i : TransferableInput} (hi : i ∈ stx.unsigned.ins) :
    ∃ u, l.chain.utxo i.utxoID = some u := by
  obtain ⟨consumed, taken, hconsumed, -⟩ := h.covered
  obtain ⟨n, hn, rfl⟩ := mem_iff_getElem.mp hi
  exact ⟨_, (forall₂_iff_get.mp hconsumed).2 n hn (hconsumed.length_eq ▸ hn)⟩

theorem found (h : Spends b l stx) {k : ID × UTXOID} (hk : k ∈ stx.unsigned.imported) :
    ∃ u, l.memory.inbound k.1 k.2 = some u := by
  obtain ⟨consumed, taken, -, htaken, -⟩ := h.covered
  obtain ⟨n, hn, rfl⟩ := mem_iff_getElem.mp hk
  exact ⟨_, (forall₂_iff_get.mp htaken).2 n hn (htaken.length_eq ▸ hn)⟩

/-- What is made comes from an input. -/
theorem takes_of_makes (h : Spends b l stx) (hmade : stx.unsigned.made ≠ []) :
    stx.unsigned.ins ≠ [] ∨ stx.unsigned.imported ≠ [] := by
  by_contra hnone
  rw [not_or, not_not, not_not] at hnone
  obtain ⟨consumed, taken, hconsumed, htaken, hcovered⟩ := h.covered
  rw [hnone.1, forall₂_nil_left_iff] at hconsumed
  rw [hnone.2, forall₂_nil_left_iff] at htaken
  obtain ⟨o, made, hcons⟩ := exists_cons_of_ne_nil hmade
  have hpos := h.positive o (by rw [hcons]; exact mem_cons_self)
  have hle := hcovered o.assetID
  have hsplit := amountOf_cons o.assetID o.entry (made.map TransferableOutput.entry)
  rw [hconsumed, htaken, hcons, map_cons] at hle
  have ho : amountOf o.assetID [o.entry] = o.out.amount := by
    simp [amountOf, TransferableOutput.entry, countWhere_cons, countWhere_nil]
  have hnil : amountOf o.assetID (([] ++ [] : List UTXO).map UTXO.entry) = 0 := rfl
  omega

end Spends

namespace Records

variable {b : Backend} {T : Set Tx} {l : Ledger} {stx : Tx}

section

variable (hT : Set.InjOn Tx.id T) (h : l.Records T) (hs : Spends b l stx) (hstx : stx ∈ T)

include hT h hs hstx

/-- A transaction that has been executed takes nothing any more. -/
theorem takes_nothing {t : Tx × TxStatus} (ht : l.chain.tx stx.id = some t) :
    stx.unsigned.ins = [] ∧ stx.unsigned.imported = [] := by
  obtain ⟨hid, hmem⟩ := h.tx_id _ _ ht
  have heq : t.1 = stx := hT hmem hstx hid
  constructor
  · refine eq_nil_iff_forall_not_mem.mpr fun i hi => ?_
    obtain ⟨u, hu⟩ := hs.live hi
    rw [(h.spent _ _ ht i (heq ▸ hi)).2] at hu
    cases hu
  refine eq_nil_iff_forall_not_mem.mpr fun k hk => ?_
  obtain ⟨u, hu⟩ := hs.found hk
  rw [h.taken k (h.imported _ _ ht k (heq ▸ hk))] at hu
  cases hu

/-- A transaction that makes an output has not been executed. -/
theorem not_recorded (hmade : stx.unsigned.made ≠ []) : l.chain.tx stx.id = none := by
  cases ht : l.chain.tx stx.id with
  | none => rfl
  | some t =>
    obtain ⟨hins, himported⟩ := takes_nothing hT h hs hstx ht
    rcases hs.takes_of_makes hmade with hne | hne
    · exact absurd hins hne
    · exact absurd himported hne

/-- Nor has it produced anything. -/
theorem not_produced (hmade : stx.unsigned.made ≠ []) {id : UTXOID} (hid : id.txID = stx.id) :
    id ∉ l.produced := by
  intro hmem
  rcases h.source id hmem with hempty | ⟨t, ht⟩
  · exact hs.named hmade (hid ▸ hempty)
  rw [hid, not_recorded hT h hs hstx hmade] at ht
  cases ht

end

/-- Recording a transaction changes no transaction that is there. -/
theorem tx_update (hT : Set.InjOn Tx.id T) (h : l.Records T) (hstx : stx ∈ T) {status : TxStatus}
    {id : ID} {t : Tx × TxStatus} (ht : l.chain.tx id = some t) :
    ∃ t', update l.chain.tx stx.id (some (stx, status)) id = some t' ∧ t'.1 = t.1 := by
  by_cases hid : id = stx.id
  · subst hid
    obtain ⟨hid', hmem⟩ := h.tx_id _ _ ht
    exact ⟨_, update_self .., (hT hmem hstx hid').symm⟩
  · exact ⟨t, by rw [update_of_ne hid, ht], rfl⟩

/-- One transaction: some UTXOs are deleted, its own inputs among them, and new ones are
    added. -/
theorem next {l' : Ledger} (h : l.Records T) (hstx : stx ∈ T) {status : TxStatus}
    {deleted : List UTXOID} {added : List UTXO}
    (htx : l'.chain.tx = update l.chain.tx stx.id (some (stx, status)))
    (hutxo : l'.chain.utxo = ((l.chain.deleteUTXOs deleted).addUTXOs added).utxo)
    (hproduced : l'.produced = l.produced ++ added.map UTXO.utxoID)
    (hins : ∀ i ∈ stx.unsigned.ins, i.utxoID ∈ deleted ∧ i.utxoID ∈ l.produced)
    (hnodup : (added.map UTXO.utxoID).Nodup)
    (hfresh : ∀ u ∈ added, u.utxoID ∉ l.produced)
    (hsource : ∀ u ∈ added, ∃ t, l'.chain.tx u.utxoID.txID = some t)
    (htaken : ∀ k, k ∈ l'.memory.takenKeys ↔ k ∈ l.memory.takenKeys ∨ k ∈ stx.unsigned.imported)
    (hinbound : ∀ c id, l'.memory.inbound c id =
      if (c, id) ∈ stx.unsigned.imported then none else l.memory.inbound c id) : l'.Records T := by
  have hfresh' : ∀ id ∈ l.produced, id ∉ added.map UTXO.utxoID := by
    rintro id hid hmem
    obtain ⟨u, hu, rfl⟩ := mem_map.mp hmem
    exact hfresh u hu hid
  -- what was produced before is live only if it was live and is not deleted
  have hold : ∀ id ∈ l.produced, l'.chain.utxo id = (l.chain.deleteUTXOs deleted).utxo id := by
    intro id hid
    rw [hutxo]
    exact Chain.utxo_addUTXOs_of_notMem (hfresh' id hid)
  have htx_cases : ∀ id t, l'.chain.tx id = some t →
      id = stx.id ∧ t = (stx, status) ∨ l.chain.tx id = some t := by
    intro id t ht
    rw [htx] at ht
    by_cases hid : id = stx.id
    · rw [hid, update_self] at ht
      exact .inl ⟨hid, (Option.some.inj ht).symm⟩
    rw [update_of_ne hid] at ht
    exact .inr ht
  refine ⟨?_, ?_, ?_, ?_, ?_, ?_, ?_⟩
  · intro id t ht
    rcases htx_cases id t ht with ⟨rfl, rfl⟩ | ht
    · exact ⟨rfl, hstx⟩
    · exact h.tx_id id t ht
  · intro id u hu
    rw [hutxo] at hu
    rw [hproduced, mem_append]
    rcases Chain.utxo_addUTXOs_cases hnodup hu with ⟨hmem, rfl⟩ | ⟨-, hu⟩
    · exact ⟨rfl, .inr (mem_map_of_mem hmem)⟩
    obtain ⟨hid, hmem⟩ := h.live id u (Chain.utxo_deleteUTXOs.mp hu).2
    exact ⟨hid, .inl hmem⟩
  · intro id t ht i hi
    rw [hproduced, mem_append]
    rcases htx_cases id t ht with ⟨rfl, rfl⟩ | ht
    · obtain ⟨hdeleted, hmem⟩ := hins i hi
      refine ⟨.inl hmem, ?_⟩
      rw [hold _ hmem]
      exact if_pos hdeleted
    obtain ⟨hmem, hnone⟩ := h.spent id t ht i hi
    refine ⟨.inl hmem, ?_⟩
    rw [hold _ hmem, Chain.deleteUTXOs]
    dsimp only
    rw [hnone, ite_self]
  · intro id t ht k hk
    rw [htaken]
    rcases htx_cases id t ht with ⟨rfl, rfl⟩ | ht
    · exact .inr hk
    · exact .inl (h.imported id t ht k hk)
  · intro k hk
    rw [hinbound]
    split
    · rfl
    rename_i hk'
    rcases (htaken k).mp hk with hk | hk
    · exact h.taken k hk
    · exact absurd hk hk'
  · intro id hid
    rw [hproduced, mem_append] at hid
    rcases hid with hid | hid
    · refine (h.source id hid).imp_right ?_
      rintro ⟨t, ht⟩
      rw [htx]
      by_cases heq : id.txID = stx.id
      · rw [heq]
        exact ⟨_, update_self ..⟩
      · exact ⟨t, by rw [update_of_ne heq, ht]⟩
    obtain ⟨u, hu, rfl⟩ := mem_map.mp hid
    exact .inr (hsource u hu)
  · rw [hproduced]
    refine h.nodup.append hnodup fun id hid hid' => hfresh' id hid hid'

end Records

end Ledger

end SavannahNode.PlatformVM
