import SavannahNode.ForStd.Except
import SavannahNode.Native.Directed

/-!
# Statuses of transactions in snowstorm

Consensus decides a transaction by taking it out of the conflict graph first, so the
transactions of the graph are undecided at every point, and a status that is decided stays.
Every function of `Directed` that returns keeps both, also in the middle of the recursion
through the blockers.

## Key results

- `moves_rejectOne`, `moves_accept` — the recursive functions
- `evolves_add`, `moves_remove`, `moves_recordPoll` — the operations
- `status_of_remove` — a transaction that was removed is rejected
- `predictions_iff` — when `Conflicts` and `IsVirtuous` know what `Add` will find
- `decisions_final` — no run changes a decision
-/

namespace SavannahNode.Snowstorm.Directed

open Except Finmap Finset Function List

variable {dg dg' dg'' : Directed} {order : RangeOrder ID}

/-- Nodes are stored under their transaction's ID, and their transactions are undecided. -/
structure Tidy (dg : Directed) : Prop where
  keyed : ∀ id n, dg.txs.lookup id = some n → n.tx.id = id
  undecided : ∀ id ∈ dg.txs.keys, (dg.decidables.status id).decided = false

/-- Every node of `dg'` has the transaction of a node of `dg` under the same ID. -/
def TxsFrom (dg dg' : Directed) : Prop :=
  ∀ id n', dg'.txs.lookup id = some n' → ∃ n, dg.txs.lookup id = some n ∧ n'.tx = n.tx

theorem TxsFrom.refl (dg : Directed) : dg.TxsFrom dg := fun _ n h => ⟨n, h, rfl⟩

theorem TxsFrom.trans (h : dg.TxsFrom dg') (h' : dg'.TxsFrom dg'') : dg.TxsFrom dg'' := by
  intro id n'' hn''
  obtain ⟨n', hn', htx'⟩ := h' id n'' hn''
  obtain ⟨n, hn, htx⟩ := h id n' hn'
  exact ⟨n, hn, htx'.trans htx⟩

theorem TxsFrom.of_eq (h : dg'.txs = dg.txs) : dg.TxsFrom dg' := fun _ n hn => ⟨n, h ▸ hn, rfl⟩

variable {id txID : ID} {tx : Tx} {deps : List ID} {s' : Directed × Bool}
  {dependencies : Tx → List ID} {s : Directed × DirectedTx}

theorem TxsFrom.notMem_keys (h : dg.TxsFrom dg') (hid : id ∉ dg.txs.keys) : id ∉ dg'.txs.keys := by
  intro hid'
  obtain ⟨n', hn'⟩ := (mem_keys_iff _ _).mp hid'
  obtain ⟨n, hn, -⟩ := h id n' hn'
  exact hid ((mem_keys_iff _ _).mpr ⟨n, hn⟩)

theorem TxsFrom.lookup {n : DirectedTx} (h : dg.TxsFrom dg') (hkeys : dg.txs.keys ⊆ dg'.txs.keys)
    (hn : dg.txs.lookup id = some n) : ∃ n', dg'.txs.lookup id = some n' ∧ n'.tx = n.tx := by
  obtain ⟨n', hn'⟩ := (mem_keys_iff _ _).mp (hkeys ((mem_keys_iff _ _).mpr ⟨n, hn⟩))
  obtain ⟨m, hm, htx⟩ := h id n' hn'
  cases hn.symm.trans hm
  exact ⟨n', hn', htx⟩

theorem TxsFrom.insert {n n' : DirectedTx} (hn : dg.txs.lookup id = some n)
    (htxs : dg'.txs = dg.txs.insert id n') (htx : n'.tx = n.tx) : dg.TxsFrom dg' := by
  intro x m hm
  rw [htxs, lookup_insert_ite] at hm
  split at hm
  · rename_i hx
    subst hx
    cases hm
    exact ⟨n, hn, htx⟩
  · exact ⟨m, hm, rfl⟩

theorem TxsFrom.erase (htxs : dg'.txs = dg.txs.erase id) : dg.TxsFrom dg' := by
  intro x m hm
  rw [htxs, lookup_erase_ite] at hm
  split at hm
  · cases hm
  · exact ⟨m, hm, rfl⟩

/-- `dg'` is a later state than `dg`: no transaction was added, and only transactions of the
    graph were decided. -/
structure Settles (dg dg' : Directed) : Prop where
  tidy : dg'.Tidy
  txsFrom : dg.TxsFrom dg'
  status_eq : ∀ id, id ∉ dg.txs.keys → dg'.decidables.status id = dg.decidables.status id
  params_eq : dg'.params = dg.params

theorem Settles.refl (h : dg.Tidy) : dg.Settles dg := ⟨h, .refl dg, fun _ _ => rfl, rfl⟩

theorem Settles.trans (h : dg.Settles dg') (h' : dg'.Settles dg'') : dg.Settles dg'' := by
  refine ⟨h'.tidy, h.txsFrom.trans h'.txsFrom, fun id hid => ?_, h'.params_eq.trans h.params_eq⟩
  exact (h'.status_eq id (h.txsFrom.notMem_keys hid)).trans (h.status_eq id hid)

/-- A change that decides nothing. -/
theorem Settles.of_txsFrom (h : dg.Tidy) (htxs : dg.TxsFrom dg')
    (hstatus : dg'.decidables = dg.decidables) (hparams : dg'.params = dg.params) :
    dg.Settles dg' := by
  refine ⟨⟨fun id n' hn' => ?_, fun id hid => ?_⟩, htxs, fun _ _ => by rw [hstatus], hparams⟩
  · obtain ⟨n, hn, htx⟩ := htxs id n' hn'
    rw [htx]
    exact h.keyed id n hn
  obtain ⟨n', hn'⟩ := (mem_keys_iff _ _).mp hid
  obtain ⟨n, hn, -⟩ := htxs id n' hn'
  rw [hstatus]
  exact h.undecided id ((mem_keys_iff _ _).mpr ⟨n, hn⟩)

/-- Every input in the index has a spender, virtuous transactions are processing, and so are
    those the index has for an input, apart from the one that is being issued. -/
structure Indexed (dg : Directed) (new : Option Tx) : Prop where
  spent : ∀ inputID, dg.utxos.lookup inputID ≠ some ∅
  processing : dg.virtuous ⊆ dg.txs.keys
  spends : ∀ inputID, ∀ id ∈ dg.spenders inputID, ∃ tx, inputID ∈ tx.inputIDs ∧
    ((∃ n, dg.txs.lookup id = some n ∧ n.tx = tx) ∨ new = some tx ∧ tx.id = id)

/-- `dg'` is a later state than `dg`, and the index was kept. -/
structure Moves (dg dg' : Directed) : Prop extends dg.Settles dg' where
  indexed : ∀ new, dg.Indexed new → dg'.Indexed new

theorem Moves.refl (h : dg.Tidy) : dg.Moves dg := ⟨.refl h, fun _ hi => hi⟩

theorem Moves.trans (h : dg.Moves dg') (h' : dg'.Moves dg'') : dg.Moves dg'' :=
  ⟨h.toSettles.trans h'.toSettles, fun new hi => h'.indexed new (h.indexed new hi)⟩

/-- Nodes are changed. -/
theorem Moves.of_txsFrom (h : dg.Tidy) (htxs : dg.TxsFrom dg') (hkeys : dg.txs.keys ⊆ dg'.txs.keys)
    (hutxos : dg'.utxos = dg.utxos) (hvirtuous : dg'.virtuous ⊆ dg.virtuous)
    (hstatus : dg'.decidables = dg.decidables) (hparams : dg'.params = dg.params) :
    dg.Moves dg' := by
  refine ⟨.of_txsFrom h htxs hstatus hparams, fun new hi =>
    ⟨hutxos ▸ hi.spent, hvirtuous.trans (hi.processing.trans hkeys), fun i x hx => ?_⟩⟩
  rw [spenders, hutxos] at hx
  obtain ⟨tx, hmem, hx⟩ := hi.spends i x hx
  refine ⟨tx, hmem, hx.imp_left ?_⟩
  rintro ⟨n, hn, rfl⟩
  exact htxs.lookup hkeys hn

theorem Moves.of_eq (h : dg.Tidy) (htxs : dg'.txs = dg.txs) (hutxos : dg'.utxos = dg.utxos)
    (hvirtuous : dg'.virtuous = dg.virtuous) (hstatus : dg'.decidables = dg.decidables)
    (hparams : dg'.params = dg.params) : dg.Moves dg' :=
  .of_txsFrom h (.of_eq htxs) (by rw [htxs]) hutxos (by rw [hvirtuous]) hstatus hparams

/-- A node is changed. -/
theorem Moves.insert {n n' : DirectedTx} (h : dg.Tidy) (hn : dg.txs.lookup id = some n)
    (htxs : dg'.txs = dg.txs.insert id n') (htx : n'.tx = n.tx) (hutxos : dg'.utxos = dg.utxos)
    (hvirtuous : dg'.virtuous ⊆ dg.virtuous) (hstatus : dg'.decidables = dg.decidables)
    (hparams : dg'.params = dg.params) : dg.Moves dg' := by
  refine .of_txsFrom h (.insert hn htxs htx) ?_ hutxos hvirtuous hstatus hparams
  rw [htxs, keys_insert]
  exact subset_insert _ _

/-- The status of a transaction that isn't in the graph is set. -/
theorem Tidy.of_decide {status : Status} {calls : List Decision} (h : dg.Tidy)
    (hid : id ∉ dg.txs.keys) (htxs : dg'.txs = dg.txs)
    (hdec : dg'.decidables = { status := update dg.decidables.status id status, calls }) :
    dg'.Tidy := by
  refine ⟨by rw [htxs]; exact h.keyed, fun x hx => ?_⟩
  rw [htxs] at hx
  have hne : x ≠ id := by
    rintro rfl
    exact hid hx
  rw [hdec]
  show ((update dg.decidables.status id status) x).decided = false
  rw [update_of_ne hne]
  exact h.undecided x hx

/-- A transaction leaves the graph, and is decided then. -/
theorem Moves.decide {status : Status} {calls : List Decision} (h : dg.Moves dg')
    (hmem : id ∈ dg.txs.keys) (hnot : id ∉ dg'.txs.keys)
    (h' : ({ dg' with
      decidables := { status := update dg'.decidables.status id status, calls } } :
        Directed).Moves dg'') :
    dg.Moves dg'' ∧ dg''.decidables.status id = status := by
  refine ⟨⟨⟨h'.tidy, h.txsFrom.trans h'.txsFrom, fun x hx => ?_, h'.params_eq.trans h.params_eq⟩,
    fun new hi => h'.indexed new { h.indexed new hi with }⟩, ?_⟩
  · have hne : x ≠ id := by
      rintro rfl
      exact hx hmem
    rw [h'.status_eq x (h.txsFrom.notMem_keys hx), ← h.status_eq x hx]
    exact update_of_ne hne _ _
  · rw [h'.status_eq id hnot]
    exact update_self _ _ _

theorem node_eq_ok {n : DirectedTx} : dg.node id = .ok n ↔ dg.txs.lookup id = some n := by
  rw [node]
  cases dg.txs.lookup id with
  | none =>
    constructor <;>
    · intro h
      cases h
  | some m =>
    constructor
    · exact fun h => congrArg _ (ok.inj h)
    · exact fun h => congrArg _ (Option.some.inj h)

/-! ## Taking transactions out of the graph -/

/-- Removing a transaction from the inputs changes `utxos` and `whitelists` only. -/
theorem unspend_eq (dg : Directed) (key : ID) (inputIDs : List ID) :
    dg.unspend key inputIDs = { dg with
      utxos := (dg.unspend key inputIDs).utxos
      whitelists := (dg.unspend key inputIDs).whitelists } := by
  rw [unspend]
  induction inputIDs generalizing dg with
  | nil => rfl
  | cons i inputIDs ih =>
    rw [foldl_cons]
    split
    · exact ih dg
    · rw [ih]

theorem moves_removeConflict (ht : dg.Tidy) (key : ID) (neighborIDs : List ID) :
    dg.Moves (dg.removeConflict key neighborIDs) := by
  rw [removeConflict]
  induction neighborIDs generalizing dg with
  | nil => exact .refl ht
  | cons x neighborIDs ih =>
    rw [foldl_cons]
    split
    · exact ih ht
    rename_i n hn
    have hx : dg.Moves { dg with
        txs := dg.txs.insert x { n with ins := n.ins.erase key, outs := n.outs.erase key }
        preferences := if n.outs.erase key = ∅ then insert x dg.preferences
          else dg.preferences } :=
      .insert ht hn rfl rfl rfl (Finset.Subset.refl _) rfl rfl
    exact hx.trans (ih hx.tidy)

theorem spent_unspend (key : ID) (inputIDs : List ID)
    (h : ∀ inputID, dg.utxos.lookup inputID ≠ some ∅) (inputID : ID) :
    (dg.unspend key inputIDs).utxos.lookup inputID ≠ some ∅ := by
  rw [unspend]
  induction inputIDs generalizing dg with
  | nil => exact h inputID
  | cons x inputIDs ih =>
    rw [foldl_cons]
    refine ih fun i => ?_
    split
    · exact h i
    rename_i txIDs _
    show (if txIDs.erase key = ∅ then dg.utxos.erase x
      else dg.utxos.insert x (txIDs.erase key)).lookup i ≠ some ∅
    have hi := h i
    split
    · rw [lookup_erase_ite]
      split <;> simp [hi]
    rw [lookup_insert_ite]
    split <;> simp [*]

/-- The transaction is no longer an option for consuming its inputs. -/
theorem spenders_unspend {key inputID : ID} {inputIDs : List ID}
    (h : id ∈ (dg.unspend key inputIDs).spenders inputID) :
    id ∈ dg.spenders inputID ∧ (id = key → inputID ∉ inputIDs) := by
  rw [unspend] at h
  induction inputIDs generalizing dg with
  | nil => exact ⟨h, fun _ => not_mem_nil⟩
  | cons x inputIDs ih =>
    rw [foldl_cons] at h
    split at h
    · rename_i hx
      obtain ⟨hmem, hkey⟩ := ih h
      refine ⟨hmem, fun heq hi => ?_⟩
      rcases mem_cons.mp hi with rfl | hi
      · simp [spenders, hx] at hmem
      · exact hkey heq hi
    rename_i txIDs hx
    obtain ⟨hmem, hkey⟩ := ih h
    -- whether or not the entry of `x` is kept, it has the other transactions
    have hlookup : id ∈ if inputID = x then txIDs.erase key else dg.spenders inputID := by
      change id ∈ ((if txIDs.erase key = ∅ then dg.utxos.erase x
        else dg.utxos.insert x (txIDs.erase key)).lookup inputID).getD ∅ at hmem
      split
      · rename_i heq
        subst heq
        split at hmem <;> simp_all
      · rename_i hne
        split at hmem <;> simpa [spenders, lookup_erase_ite, lookup_insert_ite, hne] using hmem
    split at hlookup
    · rename_i heq
      subst heq
      obtain ⟨hne, hid⟩ := mem_erase.mp hlookup
      exact ⟨by simpa [spenders, hx] using hid, fun heq => absurd heq hne⟩
    · rename_i hne
      exact ⟨hlookup, fun heq => not_mem_cons_of_ne_of_not_mem hne (hkey heq)⟩

theorem abandonAcceptors_eq (dg : Directed) (id : ID) : dg.abandonAcceptors id = { dg with
      pendingAccept := dg.pendingAccept.erase id
      acceptors := (dg.abandonAcceptors id).acceptors } := by
  have hfold : ∀ (l : List Nat) (dg : Directed), l.foldl (fun dg p =>
      { dg with acceptors := dg.acceptors.modify p fun a => { a with rejected := true } }) dg =
      { dg with acceptors := (l.foldl (fun dg p =>
        { dg with acceptors := dg.acceptors.modify p fun a => { a with rejected := true } })
          dg).acceptors } := by
    intro l
    induction l with
    | nil => exact fun dg => rfl
    | cons p l ih =>
      intro dg
      rw [foldl_cons, ih]
  exact hfold _ _

/-- A transaction that was taken out of the graph is not in it. -/
theorem detach_spec {key : ID} {conflict : DirectedTx} (ht : dg.Tidy) (order : RangeOrder ID)
    (hnode : dg.txs.lookup key = some conflict) :
    dg.Moves (dg.detach order key conflict) ∧ key ∉ (dg.detach order key conflict).txs.keys := by
  set dg1 := dg.unspend key conflict.tx.inputIDs with hdg1
  set dg2 : Directed := { dg1 with
    txs := dg1.txs.erase key
    preferences := dg1.preferences.erase key
    virtuous := dg1.virtuous.erase key
    virtuousVoting := dg1.virtuousVoting.erase key } with hdg2
  rw [unspend_eq] at hdg1
  have htxs : dg2.txs = dg.txs.erase key := by rw [hdg2, hdg1]
  have h2 : dg.Moves dg2 := by
    refine ⟨.of_txsFrom ht (.erase htxs) (by rw [hdg2, hdg1]) (by rw [hdg2, hdg1]),
      fun new hi => ⟨spent_unspend key _ hi.spent, ?_, fun i x hx => ?_⟩⟩
    · rw [htxs, keys_erase, hdg2, hdg1]
      exact erase_subset_erase key hi.processing
    obtain ⟨hx, hkey⟩ := spenders_unspend hx
    obtain ⟨tx, hmem, hx⟩ := hi.spends i x hx
    refine ⟨tx, hmem, hx.imp_left ?_⟩
    rintro ⟨n, hn, rfl⟩
    -- the transaction that leaves is an option for none of its inputs
    have hne : x ≠ key := by
      rintro rfl
      cases hn.symm.trans hnode
      exact hkey rfl hmem
    exact ⟨n, by rw [htxs, lookup_erase_ne hne, hn], rfl⟩
  have h3 := moves_removeConflict h2.tidy key (order.list conflict.ins)
  have h4 := h3.trans (moves_removeConflict h3.tidy key (order.list conflict.outs))
  refine ⟨h2.trans h4, h4.txsFrom.notMem_keys ?_⟩
  exact lookup_eq_none.mp (lookup_erase _ _)

/-! ## Blockers -/

section Recursion

-- what `reject` and `accept` do when they are called for a transaction that was blocked
variable {call : Directed → ID → Except Fault Directed}
  (hcall : ∀ dg id dg', dg.Tidy → call dg id = .ok dg' → dg.Moves dg')

include hcall

theorem moves_fulfillRejector {p : Nat} (ht : dg.Tidy)
    (h : fulfillRejector call dg p = .ok dg') : dg.Moves dg' := by
  rw [fulfillRejector] at h
  split at h
  · cases h
    exact .refl ht
  rename_i r hr
  split at h
  · cases h
    exact .refl ht
  have hmark : dg.Moves
      { dg with rejectors := dg.rejectors.set p { r with rejected := true } } :=
    .of_eq ht rfl rfl rfl rfl rfl
  exact hmark.trans (hcall _ _ _ hmark.tidy h)

/-- A transaction that was taken out of the graph is rejected, and so are those waiting. -/
theorem moves_rejectTx (ht : dg.Tidy) (hid : tx.id ∉ dg.txs.keys)
    (h : rejectTx call dg tx = .ok dg') :
    ({ dg with decidables := dg.decidables.reject tx.id } : Directed).Moves dg' := by
  set dg1 : Directed := { dg with decidables := dg.decidables.reject tx.id } with hdg1
  have ht1 : dg1.Tidy := ht.of_decide hid rfl rfl
  refine foldlM_ok (P := fun s => dg1.Moves s) h ?_ ?_
  · refine .of_eq ht1 ?_ ?_ ?_ ?_ ?_ <;> rw [abandonAcceptors_eq]
  · intro s p s' _ hs hs'
    exact hs.trans (moves_fulfillRejector hcall hs.tidy hs')

theorem moves_updateAcceptor {p : Nat} (ht : dg.Tidy)
    (h : updateAcceptor call dg p = .ok dg') : dg.Moves dg' := by
  rw [updateAcceptor] at h
  split at h
  · cases h
    exact .refl ht
  split at h
  · cases h
    exact .refl ht
  · exact hcall _ _ _ ht h

theorem moves_acceptTx (ht : dg.Tidy) (hid : tx.id ∉ dg.txs.keys)
    (h : acceptTx call dg tx = .ok dg') :
    ({ dg with decidables := dg.decidables.accept tx.id } : Directed).Moves dg' := by
  set dg1 : Directed := { dg with decidables := dg.decidables.accept tx.id } with hdg1
  have ht1 : dg1.Tidy := ht.of_decide hid rfl rfl
  obtain ⟨dg2, hfold, hret⟩ := bind_eq_ok.mp h
  cases hret
  have h2 : dg1.Moves dg2 := by
    refine foldlM_ok (P := fun s => dg1.Moves s) hfold (.of_eq ht1 rfl rfl rfl rfl rfl) ?_
    intro s p s' _ hs hs'
    have hmodify : s.Moves { s with
        acceptors := s.acceptors.modify p fun a => { a with deps := a.deps.erase tx.id } } :=
      .of_eq hs.tidy rfl rfl rfl rfl rfl
    exact (hs.trans hmodify).trans (moves_updateAcceptor hcall hmodify.tidy hs')
  exact h2.trans (.of_eq h2.tidy rfl rfl rfl rfl rfl)

end Recursion

/-! ## Rejecting -/

theorem moves_rejectOne (order : RangeOrder ID) (fuel : Nat) (key : ID) (ht : dg.Tidy)
    (h : rejectOne order fuel dg key = .ok dg') :
    dg.Moves dg' ∧ dg'.decidables.status key = .rejected := by
  induction fuel generalizing dg dg' key with
  | zero => cases h
  | succ fuel ih =>
    obtain ⟨conflict, hnode, h⟩ := bind_eq_ok.mp h
    rw [node_eq_ok] at hnode
    have hmem : key ∈ dg.txs.keys := (mem_keys_iff _ _).mpr ⟨conflict, hnode⟩
    obtain ⟨h1, hnot⟩ := detach_spec ht order hnode
    have hid : conflict.tx.id = key := ht.keyed key conflict hnode
    have h2 := moves_rejectTx (fun _ _ _ ht h => (ih _ ht h).1) h1.tidy (by rw [hid]; exact hnot) h
    rw [hid] at h2
    exact h1.decide hmem hnot h2

theorem moves_reject {conflictIDs : Finset ID} (ht : dg.Tidy)
    (h : dg.reject order conflictIDs = .ok dg') : dg.Moves dg' := by
  refine foldlM_ok (P := fun s => dg.Moves s) h (.refl ht) ?_
  intro s id s' _ hs hs'
  exact hs.trans (moves_rejectOne order _ id hs.tidy hs').1

/-- `Remove`. -/
theorem moves_remove (ht : dg.Tidy) (h : dg.remove order txID = .ok dg') : dg.Moves dg' :=
  moves_reject ht h

theorem status_of_remove (ht : dg.Tidy) (h : dg.remove order txID = .ok dg') :
    dg'.decidables.status txID = .rejected := by
  rw [remove, reject, order.list_singleton, foldlM_cons] at h
  obtain ⟨dg1, h1, h⟩ := bind_eq_ok.mp h
  cases h
  exact (moves_rejectOne order _ txID ht h1).2

/-! ## Accepting -/

/-- The transaction consumes all its inputs. -/
theorem lookup_withdraw (txID : ID) (txNode : DirectedTx) (inputID : ID) :
    (dg.withdraw txID txNode).utxos.lookup inputID =
      if inputID ∈ txNode.tx.inputIDs then none else dg.utxos.lookup inputID := by
  show (txNode.tx.inputIDs.foldl (fun utxos inputID => utxos.erase inputID) dg.utxos).lookup _ = _
  generalize dg.utxos = utxos
  induction txNode.tx.inputIDs generalizing utxos with
  | nil => rfl
  | cons x inputIDs ih =>
    rw [foldl_cons, ih, lookup_erase_ite]
    by_cases hx : inputID = x <;> simp [hx]

theorem moves_withdraw {txNode : DirectedTx} (ht : dg.Tidy)
    (hnode : dg.txs.lookup txID = some txNode) : dg.Moves (dg.withdraw txID txNode) := by
  refine ⟨.of_txsFrom ht (.erase rfl) rfl rfl, fun new hi => ⟨fun i => ?_, ?_, fun i x hx => ?_⟩⟩
  · rw [lookup_withdraw]
    split <;> simp [hi.spent i]
  · rw [withdraw, keys_erase]
    exact erase_subset_erase txID hi.processing
  rw [spenders, lookup_withdraw] at hx
  split at hx
  · cases notMem_empty x hx
  rename_i hunspent
  obtain ⟨tx, hmem, hx⟩ := hi.spends i x hx
  refine ⟨tx, hmem, hx.imp_left ?_⟩
  rintro ⟨n, hn, rfl⟩
  have hne : x ≠ txID := by
    rintro rfl
    cases hn.symm.trans hnode
    exact hunspent hmem
  exact ⟨n, (lookup_erase_ne hne).trans hn, rfl⟩

theorem moves_accept (order : RangeOrder ID) (fuel : Nat) (txID : ID) (ht : dg.Tidy)
    (h : accept order fuel dg txID = .ok dg') :
    dg.Moves dg' ∧ dg'.decidables.status txID = .accepted := by
  induction fuel generalizing dg dg' txID with
  | zero => cases h
  | succ fuel ih =>
    obtain ⟨txNode, hnode, h⟩ := bind_eq_ok.mp h
    obtain ⟨dg2, hins, h⟩ := bind_eq_ok.mp h
    obtain ⟨dg3, houts, h⟩ := bind_eq_ok.mp h
    rw [node_eq_ok] at hnode
    have hmem : txID ∈ dg.txs.keys := (mem_keys_iff _ _).mpr ⟨txNode, hnode⟩
    have hid : txNode.tx.id = txID := ht.keyed txID txNode hnode
    have h1 := moves_withdraw ht hnode
    have h2 := moves_reject h1.tidy hins
    have h3 := h2.trans (moves_reject h2.tidy houts)
    have hnot : txID ∉ (dg.withdraw txID txNode).txs.keys := lookup_eq_none.mp (lookup_erase _ _)
    have hnot3 : txID ∉ dg3.txs.keys := h3.txsFrom.notMem_keys hnot
    have h4 := moves_acceptTx (fun _ _ _ ht h => (ih _ ht h).1) h3.tidy (by rw [hid]; exact hnot3) h
    rw [hid] at h4
    exact (h1.trans h3).decide hmem hnot3 h4

/-! ## Polling -/

theorem moves_registerAcceptor (ht : dg.Tidy) (h : dg.registerAcceptor order deps txID = .ok dg') :
    dg.Moves dg' := by
  rw [registerAcceptor] at h
  have hreg : dg.Moves { dg with
      virtuousVoting := dg.virtuousVoting.erase txID
      acceptors := dg.acceptors ++ [{ deps := dg.unaccepted deps, rejected := false, txID }]
      pendingAccept := dg.pendingAccept.register (order.list (dg.unaccepted deps))
        dg.acceptors.length } := .of_eq ht rfl rfl rfl rfl rfl
  exact hreg.trans (moves_updateAcceptor
    (fun _ _ _ ht h => (moves_accept order _ _ ht h).1) hreg.tidy h)

theorem moves_redirectEdge {conflictID : ID} {s : Directed × Bool} (ht : s.1.Tidy)
    (h : redirectEdge txID s conflictID = .ok s') : s.1.Moves s'.1 := by
  obtain ⟨txNode, hnode, h⟩ := bind_eq_ok.mp h
  obtain ⟨conflict, hconflict, h⟩ := bind_eq_ok.mp h
  rw [node_eq_ok] at hnode hconflict
  split at h
  · cases h
    exact .refl ht
  cases h
  refine .of_txsFrom ht ?_ ?_ rfl (Finset.Subset.refl _) rfl rfl
  swap
  · simp only [keys_insert]
    exact (Finset.subset_insert _ _).trans (Finset.subset_insert _ _)
  intro x m hm
  simp only [lookup_insert_ite] at hm
  split at hm
  · rename_i hx
    subst hx
    cases hm
    exact ⟨txNode, hnode, rfl⟩
  split at hm
  · rename_i hx
    subst hx
    cases hm
    exact ⟨conflict, hconflict, rfl⟩
  · exact ⟨m, hm, rfl⟩

theorem moves_redirectEdges (ht : dg.Tidy) (h : dg.redirectEdges order txID = .ok s') :
    dg.Moves s'.1 := by
  obtain ⟨txNode, -, h⟩ := bind_eq_ok.mp h
  refine foldlM_ok (P := fun s : Directed × Bool => dg.Moves s.1) h (.refl ht) ?_
  intro s id s' _ hs hs'
  exact hs.trans (moves_redirectEdge hs.tidy hs')

theorem moves_pollNode {txNode : DirectedTx} (ht : dg.Tidy)
    (hnode : dg.txs.lookup txID = some txNode)
    (h : dg.pollNode order dependencies txID txNode = .ok dg') : dg.Moves dg' := by
  rw [pollNode] at h
  split at h
  · have hcount : dg.Moves { dg with txs := dg.txs.insert txID { txNode with
        toSnowball := txNode.toSnowball.recordSuccessfulPoll dg.pollNumber
        pendingAccept := true } } :=
      .insert ht hnode rfl rfl rfl (Finset.Subset.refl _) rfl rfl
    exact hcount.trans (moves_registerAcceptor hcount.tidy h)
  cases h
  exact .insert ht hnode rfl rfl rfl (Finset.Subset.refl _) rfl rfl

theorem moves_pollTx {s : Directed × Bool} (ht : s.1.Tidy)
    (h : pollTx order dependencies s txID = .ok s') : s.1.Moves s'.1 := by
  rw [pollTx] at h
  split at h
  · cases h
    exact .refl ht
  rename_i txNode hnode
  obtain ⟨dg1, hpoll, h⟩ := bind_eq_ok.mp h
  have h1 := moves_pollNode ht hnode hpoll
  split at h
  · obtain ⟨s2, hredirect, h⟩ := bind_eq_ok.mp h
    have h2 := moves_redirectEdges h1.tidy hredirect
    cases h
    exact h1.trans h2
  cases h
  exact h1

/-- `RecordPoll`. -/
theorem moves_recordPoll {votes : Bag} (ht : dg.Tidy)
    (h : dg.recordPoll order dependencies votes = .ok s') : dg.Moves s'.1 := by
  refine foldlM_ok (P := fun s : Directed × Bool => dg.Moves s.1) h
    (.of_eq ht rfl rfl rfl rfl rfl) ?_
  intro s id s' _ hs hs'
  exact hs.trans (moves_pollTx hs.tidy hs')

/-! ## Issuing -/

/-- `dg'` is a later state than `dg`, in which decisions are kept. -/
structure Evolves (dg dg' : Directed) : Prop where
  tidy : dg'.Tidy
  status_eq : ∀ id, (dg.decidables.status id).decided = true →
    dg'.decidables.status id = dg.decidables.status id
  params_eq : dg'.params = dg.params

theorem Settles.evolves (ht : dg.Tidy) (h : dg.Settles dg') : dg.Evolves dg' := by
  refine ⟨h.tidy, fun id hid => h.status_eq id fun hmem => ?_, h.params_eq⟩
  rw [ht.undecided id hmem] at hid
  cases hid

theorem Evolves.refl (h : dg.Tidy) : dg.Evolves dg := ⟨h, fun _ _ => rfl, rfl⟩

theorem Evolves.trans (h : dg.Evolves dg') (h' : dg'.Evolves dg'') : dg.Evolves dg'' := by
  refine ⟨h'.tidy, fun id hid => ?_, h'.params_eq.trans h.params_eq⟩
  have hsame := h.status_eq id hid
  rw [← hsame] at hid
  exact (h'.status_eq id hid).trans hsame

/-- What issuing a transaction has done to the graph so far. -/
structure Issuing (dg : Directed) (tx : Tx) (s : Directed × DirectedTx) : Prop where
  settles : dg.Settles s.1
  indexed : dg.Indexed none → s.1.Indexed (some tx)
  tx_eq : s.2.tx = tx
  ins_eq : s.2.ins = ∅
  status_eq : s.1.decidables = dg.decidables

variable {s' : Directed × DirectedTx}

theorem Issuing.of_moves (h : Issuing dg tx s) (hmoves : s.1.Moves s'.1)
    (htx : s'.2.tx = s.2.tx) (hins : s'.2.ins = s.2.ins)
    (hstatus : s'.1.decidables = s.1.decidables) : Issuing dg tx s' :=
  ⟨h.settles.trans hmoves.toSettles, fun hi => hmoves.indexed _ (h.indexed hi), htx.trans h.tx_eq,
    hins.trans h.ins_eq, hstatus.trans h.status_eq⟩

theorem Issuing.addEdge {dstID : ID} (h : Issuing dg tx s)
    (hs' : s.1.addEdge s.2 dstID = .ok s') : Issuing dg tx s' := by
  obtain ⟨dst, hdst, hs'⟩ := bind_eq_ok.mp hs'
  rw [node_eq_ok] at hdst
  cases hs'
  exact h.of_moves (.insert h.settles.tidy hdst rfl rfl rfl (erase_subset _ _) rfl rfl) rfl rfl
    rfl

theorem Issuing.addEdges {dstIDs : List ID} (h : Issuing dg tx s)
    (hs' : s.1.addEdges s.2 dstIDs = .ok s') : Issuing dg tx s' := by
  exact foldlM_ok (P := Issuing dg tx) hs' h fun _ _ _ _ h hs => h.addEdge hs

/-- The edges are all the node gets. -/
theorem addEdges_spec {src : DirectedTx} {dstIDs : List ID} (h : dg.addEdges src dstIDs = .ok s') :
    s'.2.outs = src.outs ∪ dstIDs.toFinset ∧ s'.1.utxos = dg.utxos := by
  induction dstIDs generalizing dg src with
  | nil =>
    cases h
    exact ⟨by simp, rfl⟩
  | cons dstID dstIDs ih =>
    obtain ⟨s1, hs1, h⟩ := bind_eq_ok.mp h
    obtain ⟨dst, -, hs1⟩ := bind_eq_ok.mp hs1
    cases hs1
    obtain ⟨houts, hutxos⟩ := ih h
    exact ⟨by simp [houts], hutxos⟩

theorem Issuing.addWhitelist (h : Issuing dg tx s)
    (hs' : Directed.addWhitelist order s = .ok s') : Issuing dg tx s' := by
  rw [Directed.addWhitelist] at hs'
  split at hs'
  · cases hs'
    exact h
  obtain ⟨s1, hs1, hs'⟩ := bind_eq_ok.mp hs'
  cases hs'
  have h1 := h.addEdges hs1
  exact h1.of_moves (.of_eq h1.settles.tidy rfl rfl rfl rfl rfl) rfl rfl rfl

theorem Issuing.spend {inputID : ID} (h : Issuing dg tx s) (hmem : inputID ∈ tx.inputIDs)
    (hs' : Directed.spend order s inputID = .ok s') : Issuing dg tx s' := by
  obtain ⟨s1, hs1, hs'⟩ := bind_eq_ok.mp hs'
  cases hs'
  have h1 := h.addEdges hs1
  refine { h1 with
    settles := h1.settles.trans (.of_txsFrom h1.settles.tidy (.of_eq rfl) rfl rfl)
    indexed := fun hi => ⟨fun i => ?_, (h1.indexed hi).processing, fun i x hx => ?_⟩ }
  · rw [lookup_insert_ite]
    split
    · simp
    · exact (h1.indexed hi).spent i
  have hspends := (h1.indexed hi).spends i x
  simp only [spenders, lookup_insert_ite, (addEdges_spec hs1).2] at hx hspends
  split at hx
  · rename_i heq
    subst heq
    rcases Finset.mem_insert.mp hx with rfl | hx
    · exact ⟨tx, hmem, .inr ⟨rfl, by rw [h1.tx_eq]⟩⟩
    · exact hspends hx
  · exact hspends hx

/-- An input that is spent twice would make the transaction conflict with itself. -/
theorem outs_spend {inputIDs : List ID} (hnodup : inputIDs.Nodup)
    (h : inputIDs.foldlM (spend order) s = .ok s') :
    s'.2.outs = inputIDs.foldl (fun outs inputID => outs ∪ s.1.spenders inputID) s.2.outs := by
  induction inputIDs generalizing s with
  | nil =>
    cases h
    rfl
  | cons x inputIDs ih =>
    obtain ⟨s1, hs1, h⟩ := bind_eq_ok.mp h
    obtain ⟨s2, hs2, hs1⟩ := bind_eq_ok.mp hs1
    cases hs1
    obtain ⟨houts, hutxos⟩ := addEdges_spec hs2
    obtain ⟨hx, hnodup⟩ := nodup_cons.mp hnodup
    rw [ih hnodup h, foldl_cons, houts, order.toFinset_list]
    refine foldl_ext _ _ _ fun outs i hi => ?_
    have hne : i ≠ x := fun heq => hx (heq ▸ hi)
    simp only [spenders, hutxos, lookup_insert_of_ne _ hne]

theorem issue_spec (ht : dg.Tidy) (h : dg.issue order tx deps = .ok dg') :
    ∃ s, Issuing dg tx s ∧ dg' = (s.1.insertNode s.2).registerRejector order deps tx.id ∧
      (tx.whitelist = none → tx.inputIDs.Nodup → s.2.outs = tx.inputIDs.foldl
        (fun outs inputID => outs ∪ dg.spenders inputID) (dg.notWhitelisting tx.id)) := by
  obtain ⟨s1, hs1, h⟩ := bind_eq_ok.mp h
  obtain ⟨s2, hs2, h⟩ := bind_eq_ok.mp h
  obtain ⟨s3, hs3, h⟩ := bind_eq_ok.mp h
  cases h
  have h0 : Issuing dg tx (dg, .new tx) := by
    refine ⟨.refl ht, fun hi => ⟨hi.spent, hi.processing, fun i x hx => ?_⟩, rfl, rfl, rfl⟩
    obtain ⟨t, hmem, ht⟩ := hi.spends i x hx
    exact ⟨t, hmem, .inl (ht.resolve_right fun h => Option.some_ne_none t h.1.symm)⟩
  have h1 : Issuing dg tx s1 := h0.addEdges hs1
  have h2 : Issuing dg tx s2 := h1.addWhitelist hs2
  refine ⟨s3, foldlM_ok (P := Issuing dg tx) hs3 h2 fun _ _ _ hi h hs => h.spend hi hs, rfl, ?_⟩
  intro hwhitelist hnodup
  rw [addWhitelist, h1.tx_eq, hwhitelist] at hs2
  cases hs2
  obtain ⟨houts, hutxos⟩ := addEdges_spec hs1
  rw [outs_spend hnodup hs3, houts, order.toFinset_list]
  simp only [spenders, hutxos, DirectedTx.new, Finset.empty_union]

theorem evolves_issue (ht : dg.Tidy) (hund : (dg.decidables.status tx.id).decided = false)
    (hnone : dg.txs.lookup tx.id = none) (h : dg.issue order tx deps = .ok dg') :
    dg.Evolves dg' ∧ (dg.Indexed none → dg'.Indexed none) := by
  obtain ⟨⟨dg3, txNode⟩, h3, rfl, -⟩ := issue_spec ht h
  have htx : txNode.tx = tx := h3.tx_eq
  have hdec : dg3.decidables = dg.decidables := h3.status_eq
  refine ⟨⟨⟨fun id n hn => ?_, fun id hid => ?_⟩, fun id _ => congrFun (congrArg _ hdec) id,
    h3.settles.params_eq⟩,
    fun hi => ⟨(h3.indexed hi).spent, fun id hid => ?_, fun i id hid => ?_⟩⟩
  · have hn' : (dg3.txs.insert txNode.tx.id
      { txNode with rogue := decide (txNode.outs ≠ ∅) }).lookup id = some n := hn
    rw [lookup_insert_ite] at hn'
    split at hn'
    · rename_i hx
      cases hn'
      exact hx.symm
    · exact h3.settles.tidy.keyed id n hn'
  · have hid' : id ∈ (dg3.txs.insert txNode.tx.id
      { txNode with rogue := decide (txNode.outs ≠ ∅) }).keys := hid
    rw [keys_insert, Finset.mem_insert] at hid'
    show (dg3.decidables.status id).decided = false
    rcases hid' with rfl | hid'
    · rw [hdec, htx]
      exact hund
    · exact h3.settles.tidy.undecided id hid'
  · have hsub := (h3.indexed hi).processing
    simp only [registerRejector, insertNode] at hid ⊢
    rw [keys_insert, Finset.mem_insert]
    split at hid
    · exact .inr (hsub hid)
    · exact (mem_insert.mp hid).imp_right fun hid => hsub hid
  -- the transaction is now processing itself
  have hnone3 : dg3.txs.lookup tx.id = none :=
    lookup_eq_none.mpr (h3.settles.txsFrom.notMem_keys (lookup_eq_none.mp hnone))
  obtain ⟨t, hmem, hold | ⟨hnew, rfl⟩⟩ := (h3.indexed hi).spends i id hid
  · obtain ⟨n, hn, rfl⟩ := hold
    have hne : id ≠ txNode.tx.id := by
      rintro rfl
      rw [htx, hnone3] at hn
      cases hn
    exact ⟨n.tx, hmem, .inl ⟨n, (lookup_insert_of_ne _ hne).trans hn, rfl⟩⟩
  · cases hnew
    refine ⟨tx, hmem, .inl ⟨{ txNode with rogue := decide (txNode.outs ≠ ∅) }, ?_, htx⟩⟩
    rw [← htx]
    exact lookup_insert _

theorem lookup_eq_none_of_issued (h : dg.issued tx = false) : dg.txs.lookup tx.id = none :=
  Option.isNone_iff_eq_none.mp (Option.isSome_eq_false_iff.mp (Bool.or_eq_false_iff.mp h).2)

/-- `Add`. -/
theorem evolves_add (ht : dg.Tidy) (h : dg.add order tx deps = .ok dg') :
    dg.Evolves dg' ∧ (dg.Indexed none → dg'.Indexed none) := by
  rw [add] at h
  split at h
  · cases h
    exact ⟨.refl ht, fun hi => hi⟩
  rename_i hissued
  rw [Bool.not_eq_true] at hissued
  have hund := (Bool.or_eq_false_iff.mp hissued).1
  split at h
  · cases h
    have hnot : tx.id ∉ dg.txs.keys := lookup_eq_none.mp (lookup_eq_none_of_issued hissued)
    refine ⟨⟨ht.of_decide hnot rfl rfl, fun id hid => ?_, rfl⟩, fun hi => { hi with }⟩
    have hne : id ≠ tx.id := by
      rintro rfl
      rw [hund] at hid
      cases hid
    exact update_of_ne hne _ _
  · exact evolves_issue ht hund (lookup_eq_none_of_issued hissued) h

theorem tidy_init {params : Parameters} {status : ID → Status} (h : init params status = .ok dg) :
    dg.Tidy ∧ dg.Indexed none := by
  rw [init] at h
  split at h
  · cases h
  cases h
  refine ⟨⟨fun id n hn => ?_, fun id hid => ?_⟩, ⟨fun i hi => ?_, empty_subset _,
    fun i id hid => ?_⟩⟩
  · cases (lookup_empty id).symm.trans hn
  · cases notMem_empty id hid
  · cases (lookup_empty i).symm.trans hi
  · rw [spenders, lookup_empty] at hid
    cases notMem_empty id hid

/-- Every run keeps the graph tidy and its index. -/
theorem tidy_run {ops : List Op} (ht : dg.Tidy ∧ dg.Indexed none)
    (h : dg.run ops = .ok dg') : dg'.Tidy ∧ dg'.Indexed none := by
  refine foldlM_ok (P := fun dg => dg.Tidy ∧ dg.Indexed none) h ht ?_
  rintro dg op dg' - ⟨ht, hi⟩ h
  cases op with
  | add order tx =>
    obtain ⟨hev, hindexed⟩ := evolves_add ht h
    exact ⟨hev.tidy, hindexed hi⟩
  | remove order txID =>
    have hmoves := moves_remove ht h
    exact ⟨hmoves.tidy, hmoves.indexed _ hi⟩
  | recordPoll order votes =>
    rw [step] at h
    cases hpoll : dg.recordPoll order Tx.dependencies votes with
    | error e =>
      rw [hpoll] at h
      cases h
    | ok s =>
      rw [hpoll] at h
      cases h
      have hmoves := moves_recordPoll ht hpoll
      exact ⟨hmoves.tidy, hmoves.indexed _ hi⟩

/-! ## Predictions -/

theorem mem_foldl_union (f : ID → Finset ID) (l : List ID) (s : Finset ID) :
    id ∈ l.foldl (fun s x => s ∪ f x) s ↔ id ∈ s ∨ ∃ x ∈ l, id ∈ f x := by
  induction l generalizing s with
  | nil => simp
  | cons x l ih =>
    rw [foldl_cons, ih, Finset.mem_union, exists_mem_cons_iff, or_assoc]

theorem isVirtuous_iff (hi : dg.Indexed none) (hnew : dg.issued tx = false) :
    dg.isVirtuous tx = true ↔ dg.conflicts tx = ∅ := by
  have hspent : ∀ i, (dg.utxos.lookup i).isNone = true ↔ dg.spenders i = ∅ := by
    intro i
    have := hi.spent i
    rw [spenders]
    cases hl : dg.utxos.lookup i <;> simp_all
  simp only [isVirtuous, conflicts, lookup_eq_none_of_issued hnew, all_eq_true, hspent,
    Finset.eq_empty_iff_forall_notMem, mem_foldl_union, Finset.notMem_empty, false_or, not_exists,
    not_and]
  exact ⟨fun h id i hi => h i hi id, fun h i hi id => h id i hi⟩

/-- What `Add` finds: also the whitelists of other transactions make conflicts. -/
theorem conflicts_add (ht : dg.Tidy) (hi : dg.Indexed none) (hnew : dg.issued tx = false)
    (hinputs : tx.inputIDs ≠ []) (hnodup : tx.inputIDs.Nodup) (hwhitelist : tx.whitelist = none)
    (h : dg.add order tx deps = .ok dg') :
    dg'.conflicts tx = dg.notWhitelisting tx.id ∪ dg.conflicts tx ∧
      (tx.id ∈ dg'.virtuous ↔ dg'.conflicts tx = ∅) := by
  have hnone := lookup_eq_none_of_issued hnew
  rw [add, hnew, if_neg Bool.false_ne_true, if_neg hinputs] at h
  obtain ⟨⟨dg3, txNode⟩, h3, rfl, houts⟩ := issue_spec ht h
  have htx : txNode.tx = tx := h3.tx_eq
  have hins : txNode.ins = ∅ := h3.ins_eq
  have hafter : ((dg3.insertNode txNode).registerRejector order deps tx.id).conflicts tx =
      txNode.outs := by
    simp [conflicts, registerRejector, insertNode, htx, hins]
  have hnot : tx.id ∉ dg3.virtuous := fun hmem =>
    h3.settles.txsFrom.notMem_keys (lookup_eq_none.mp hnone) ((h3.indexed hi).processing hmem)
  rw [hafter]
  constructor
  · ext id
    rw [houts hwhitelist hnodup, conflicts, hnone, Finset.mem_union, mem_foldl_union,
      mem_foldl_union]
    simp
  · by_cases hrogue : txNode.outs = ∅ <;>
      simp [registerRejector, insertNode, htx, hrogue, hnot]

/-- An edge to a processing transaction can be added. -/
theorem addEdges_ok (dg : Directed) (src : DirectedTx) {dstIDs : List ID}
    (h : ∀ id ∈ dstIDs, id ∈ dg.txs.keys) :
    ∃ s', dg.addEdges src dstIDs = .ok s' ∧ dg.txs.keys ⊆ s'.1.txs.keys := by
  induction dstIDs generalizing dg src with
  | nil => exact ⟨_, rfl, Finset.Subset.refl _⟩
  | cons dstID dstIDs ih =>
    obtain ⟨hdst, h⟩ := forall_mem_cons.mp h
    obtain ⟨dst, hdst⟩ := (mem_keys_iff _ _).mp hdst
    set s1 : Directed × DirectedTx := ({ dg with
      virtuous := dg.virtuous.erase dstID
      virtuousVoting := dg.virtuousVoting.erase dstID
      txs := dg.txs.insert dstID { dst with rogue := true, ins := insert src.tx.id dst.ins } },
      { src with outs := insert dstID src.outs }) with hs1
    have hstep : dg.addEdge src dstID = .ok s1 := bind_eq_ok.mpr ⟨dst, node_eq_ok.mpr hdst, rfl⟩
    have hkeys : dg.txs.keys ⊆ s1.1.txs.keys := by
      rw [hs1, keys_insert]
      exact Finset.subset_insert _ _
    obtain ⟨s', hs', hsub⟩ := ih s1.1 s1.2 fun id hid => hkeys (h id hid)
    exact ⟨s', bind_eq_ok.mpr ⟨s1, hstep, hs'⟩, hkeys.trans hsub⟩

theorem foldlM_spend_ok (order : RangeOrder ID) {inputIDs : List ID} (hnodup : inputIDs.Nodup)
    (h : ∀ i ∈ inputIDs, s.1.spenders i ⊆ s.1.txs.keys) :
    ∃ s', inputIDs.foldlM (spend order) s = .ok s' := by
  induction inputIDs generalizing s with
  | nil => exact ⟨s, rfl⟩
  | cons x inputIDs ih =>
    obtain ⟨hx, hnodup⟩ := nodup_cons.mp hnodup
    obtain ⟨hspenders, h⟩ := forall_mem_cons.mp h
    obtain ⟨s1, hs1, hkeys⟩ := addEdges_ok s.1 s.2 fun id hid =>
      hspenders ((order.mem_list (s.1.spenders x) id).mp hid)
    set s2 : Directed × DirectedTx := ({ s1.1 with
      utxos := s1.1.utxos.insert x (insert s1.2.tx.id (s.1.spenders x)) }, s1.2) with hs2
    have hstep : spend order s x = .ok s2 := bind_eq_ok.mpr ⟨s1, hs1, rfl⟩
    obtain ⟨s', hs'⟩ := ih (s := s2) hnodup fun i hi => by
      have hne : i ≠ x := fun heq => hx (heq ▸ hi)
      have hsame : s2.1.spenders i = s.1.spenders i := by
        simp only [hs2, spenders, lookup_insert_of_ne _ hne, (addEdges_spec hs1).2]
      rw [hsame]
      exact (h i hi).trans hkeys
    exact ⟨s', bind_eq_ok.mpr ⟨s2, hstep, hs'⟩⟩

/-- `Add` returns if the whitelist entries the transaction is missing on are processing. -/
theorem add_ok (hi : dg.Indexed none) (hnew : dg.issued tx = false) (hinputs : tx.inputIDs ≠ [])
    (hnodup : tx.inputIDs.Nodup) (hwhitelist : tx.whitelist = none)
    (hsub : dg.notWhitelisting tx.id ⊆ dg.txs.keys) (order : RangeOrder ID) (deps : List ID) :
    ∃ dg', dg.add order tx deps = .ok dg' := by
  obtain ⟨s1, hs1, hkeys⟩ := addEdges_ok dg (.new tx) fun id hid =>
    hsub ((order.mem_list (dg.notWhitelisting tx.id) id).mp hid)
  have htx : s1.2.tx = tx := foldlM_ok (P := fun s : Directed × DirectedTx => s.2.tx = tx) hs1 rfl
    fun s id s' _ h hs' => by
      obtain ⟨dst, -, hs'⟩ := bind_eq_ok.mp hs'
      cases hs'
      exact h
  obtain ⟨s2, hs2⟩ := foldlM_spend_ok order (s := s1) hnodup fun i _ id hid => by
    rw [spenders, (addEdges_spec hs1).2] at hid
    obtain ⟨t, -, ⟨n, hn, -⟩ | ⟨h, -⟩⟩ := hi.spends i id hid
    · exact hkeys ((mem_keys_iff _ _).mpr ⟨n, hn⟩)
    · cases h
  refine ⟨(s2.1.insertNode s2.2).registerRejector order deps tx.id, ?_⟩
  rw [add, hnew, if_neg Bool.false_ne_true, if_neg hinputs]
  refine bind_eq_ok.mpr ⟨s1, hs1, bind_eq_ok.mpr ⟨s1, ?_, bind_eq_ok.mpr ⟨s2, hs2, rfl⟩⟩⟩
  rw [addWhitelist, htx, hwhitelist]

theorem conflicts_processing (hi : dg.Indexed none) (hnew : dg.issued tx = false) :
    dg.conflicts tx ⊆ dg.txs.keys := by
  intro id hid
  rw [conflicts, lookup_eq_none_of_issued hnew] at hid
  obtain hid | ⟨i, -, hid⟩ := (mem_foldl_union _ _ _).mp hid
  · cases notMem_empty id hid
  obtain ⟨t, -, ⟨n, hn, -⟩ | ⟨h, -⟩⟩ := hi.spends i id hid
  · exact (mem_keys_iff _ _).mpr ⟨n, hn⟩
  · cases h

/-- `Add` returns and the predictions for the transaction are right if and only if every
    whitelist it is not on belongs to a transaction that spends one of its inputs. -/
theorem predictions_iff {params : Parameters} {status : ID → Status} {dg₀ : Directed}
    {ops : List Op} (hinit : init params status = .ok dg₀) (hrun : dg₀.run ops = .ok dg)
    (hnew : dg.issued tx = false) (hinputs : tx.inputIDs ≠ []) (hnodup : tx.inputIDs.Nodup)
    (hwhitelist : tx.whitelist = none) (order : RangeOrder ID) :
    (∃ dg', dg.add order tx tx.dependencies = .ok dg' ∧ dg'.conflicts tx = dg.conflicts tx ∧
      (dg.isVirtuous tx = true ↔ tx.id ∈ dg'.virtuous)) ↔
        dg.notWhitelisting tx.id ⊆ dg.conflicts tx := by
  obtain ⟨ht, hi⟩ := tidy_run (tidy_init hinit) hrun
  constructor
  · rintro ⟨dg', h, hsame, -⟩
    obtain ⟨hconflicts, -⟩ := conflicts_add ht hi hnew hinputs hnodup hwhitelist h
    exact union_eq_right.mp (hconflicts.symm.trans hsame)
  intro hsub
  -- a stale whitelist entry, whose transaction is not processing, is no spender
  obtain ⟨dg', h⟩ := add_ok hi hnew hinputs hnodup hwhitelist
    (hsub.trans (conflicts_processing hi hnew)) order tx.dependencies
  obtain ⟨hconflicts, hvirtuous⟩ := conflicts_add ht hi hnew hinputs hnodup hwhitelist h
  refine ⟨dg', h, ?_⟩
  rw [hvirtuous, isVirtuous_iff hi hnew, hconflicts, union_eq_right.mpr hsub]
  exact ⟨rfl, .rfl⟩

/-- A transaction with one input. -/
def spender (id : ID) (whitelist : Option (Finset ID)) : Tx :=
  { id, inputIDs := [id], dependencies := [], whitelist }

/-- A whitelist transaction that spends the input of `spender ⟨2⟩`. -/
def rival : Tx := { spender ⟨1⟩ (some ∅) with inputIDs := [⟨2⟩] }

/-- A whitelist transaction that spends the same input is predicted. -/
theorem predictions_sameInput : ∃ dg₀ dg dg', init .minimal (fun _ => .processing) = .ok dg₀ ∧
    dg₀.run [.add .ids rival] = .ok dg ∧
    dg.notWhitelisting ⟨2⟩ = {⟨1⟩} ∧ dg.conflicts (spender ⟨2⟩ none) = {⟨1⟩} ∧
    dg.add .ids (spender ⟨2⟩ none) [] = .ok dg' ∧
    dg'.conflicts (spender ⟨2⟩ none) = dg.conflicts (spender ⟨2⟩ none) ∧
    (dg.isVirtuous (spender ⟨2⟩ none) = true ↔ ⟨2⟩ ∈ dg'.virtuous) := by
  obtain ⟨dg', h⟩ := (predictions_iff (show init .minimal (fun _ => .processing) = .ok _ from rfl)
    (show run _ [.add .ids rival] = .ok _ from rfl)
    (show issued _ (spender ⟨2⟩ none) = false by decide +kernel) (by decide) (by decide) rfl
    .ids).mpr (by decide +kernel)
  exact ⟨_, _, dg', rfl, rfl, by decide +kernel, by decide +kernel, h⟩

/-- The whitelist transaction spends another input, and doesn't whitelist the new one. -/
theorem whitelist_not_predicted : ∃ dg₀ dg dg', init .minimal (fun _ => .processing) = .ok dg₀ ∧
    dg₀.run [.add .ids (spender ⟨1⟩ (some ∅))] = .ok dg ∧ dg.issued (spender ⟨2⟩ none) = false ∧
    dg.add .ids (spender ⟨2⟩ none) [] = .ok dg' ∧
    dg.conflicts (spender ⟨2⟩ none) = ∅ ∧ dg'.conflicts (spender ⟨2⟩ none) = {⟨1⟩} ∧
    dg.isVirtuous (spender ⟨2⟩ none) = true ∧ (⟨2⟩ : ID) ∉ dg'.virtuous :=
  ⟨_, _, _, rfl, rfl, by decide +kernel, rfl, by decide +kernel⟩

/-! ## Finality -/

theorem evolves_step {op : Op} (ht : dg.Tidy) (h : dg.step op = .ok dg') : dg.Evolves dg' := by
  cases op with
  | add order tx => exact (evolves_add ht h).1
  | remove order txID => exact (moves_remove ht h).evolves ht
  | recordPoll order votes =>
    rw [step] at h
    cases hpoll : dg.recordPoll order Tx.dependencies votes with
    | error e =>
      rw [hpoll] at h
      cases h
    | ok s =>
      rw [hpoll] at h
      cases h
      exact (moves_recordPoll ht hpoll).evolves ht

/-- Once accepted or rejected, a transaction remains so and out of the graph, whatever is issued,
    removed and voted for later. -/
theorem decisions_final {params : Parameters} {status : ID → Status} {dg₀ : Directed}
    {ops more : List Op} (hinit : init params status = .ok dg₀) (hrun : dg₀.run ops = .ok dg)
    (hmore : dg.run more = .ok dg') (id : ID) (hdecided : (dg.decidables.status id).decided = true) :
    dg'.decidables.status id = dg.decidables.status id ∧ id ∉ dg'.txs.keys ∧ id ∉ dg'.virtuous := by
  have hstart := tidy_run (tidy_init hinit) hrun
  have hev : dg.Evolves dg' := by
    refine foldlM_ok (P := dg.Evolves) hmore (.refl hstart.1) ?_
    exact fun dg op dg' _ hev h => hev.trans (evolves_step hev.tidy h)
  have hstatus := hev.status_eq id hdecided
  have hout : id ∉ dg'.txs.keys := by
    intro hmem
    have hund := hev.tidy.undecided id hmem
    rw [hstatus, hdecided] at hund
    cases hund
  exact ⟨hstatus, hout, fun hmem => hout ((tidy_run hstart hmore).2.processing hmem)⟩

/-- A transaction that was removed cannot be issued again. -/
theorem decisions_final_removed : ∃ dg₀ dg dg', init .minimal (fun _ => .processing) = .ok dg₀ ∧
    dg₀.run [.add .ids (spender ⟨2⟩ none), .remove .ids ⟨2⟩] = .ok dg ∧
    dg.run [.add .ids (spender ⟨2⟩ none)] = .ok dg' ∧ dg'.decidables.status ⟨2⟩ = .rejected :=
  ⟨_, _, _, rfl, rfl, rfl,
    (decisions_final (show init .minimal (fun _ => .processing) = .ok _ from rfl)
      (show run _ [.add .ids (spender ⟨2⟩ none), .remove .ids ⟨2⟩] = .ok _ from rfl)
      (show run _ [.add .ids (spender ⟨2⟩ none)] = .ok _ from rfl) ⟨2⟩ (by decide +kernel)).1⟩

end SavannahNode.Snowstorm.Directed
