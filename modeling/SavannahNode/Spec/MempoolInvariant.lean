import SavannahNode.ForStd.Run
import SavannahNode.Native.Mempool

/-!
# The bookkeeping of the mempool

A transaction is in one of the two heaps, and the bytes that are left are those the
transactions do not use. The builder takes a proposal out and puts it back through
`AddProposalTx`, which counts its bytes again but not its inputs: from then on a transaction
that spends one of them is let in. Without that the consumed UTXOs are exactly the inputs of
the transactions in the mempool, and no two of them share one.

## Key results

* `Mempool.run_bookkeeping` — every run; the inputs, as long as what is put back has none.
* `Mempool.exists_shared_input` — a run that ends with two transactions that share an input.
-/

namespace SavannahNode.PlatformVM

open Except List TxHeap

/-! ## Heaps -/

namespace TxHeap

variable {less : HeapTx → HeapTx → Bool} {h h' : TxHeap} {tx : Tx} {txID : ID}

theorem get_eq_none : h.get txID = none ↔ ∀ t ∈ h.list, t.id ≠ txID := by
  rw [get, find?_eq_none]
  simp

theorem list_add (hnew : h.get tx.id = none) : (h.add less tx).list.Perm (tx :: h.list) := by
  have hcond : ¬(h.get tx.id).isSome = true := by
    rw [hnew]
    exact Bool.false_ne_true
  rw [add, if_neg hcond]
  exact (BinaryHeap.push_perm h.txs { tx, age := h.currentAge }).map (·.tx)

theorem list_removeTop (htop : h.removeTop less = some (tx, h')) :
    h.peek = some tx ∧ h.list.Perm (tx :: h'.list) := by
  obtain ⟨p, hp, heq⟩ := Option.map_eq_some_iff.mp htop
  cases heq
  obtain ⟨hfirst, hperm⟩ := BinaryHeap.pop_eq_some hp
  exact ⟨by rw [peek, hfirst]; rfl, hperm.map HeapTx.tx⟩

theorem list_remove (hrem : h.remove less txID = some (tx, h')) :
    tx.id = txID ∧ h.list.Perm (tx :: h'.list) := by
  obtain ⟨index, hindex, hrem⟩ := Option.bind_eq_some_iff.mp hrem
  obtain ⟨p, hp, heq⟩ := Option.map_eq_some_iff.mp hrem
  cases heq
  obtain ⟨hlt, hid, -⟩ := Array.findIdx?_eq_some_iff_getElem.mp hindex
  obtain ⟨a, ha, hperm⟩ := BinaryHeap.remove_of_getElem? less (Array.getElem?_eq_getElem hlt)
  rw [ha] at hp
  cases hp
  exact ⟨of_decide_eq_true hid, hperm.map HeapTx.tx⟩

end TxHeap

namespace Mempool

/-! ## The invariant -/

/-- The transactions in the mempool. -/
def txs (m : Mempool) : List Tx := m.unissuedDecisionTxs.list ++ m.unissuedProposalTxs.list

/-- Every transaction is there once, and the bytes add up. -/
structure Counted (size : Tx → Nat) (T : Set Tx) (m : Mempool) : Prop where
  known : ∀ tx ∈ m.txs, tx ∈ T
  nodup : (m.txs.map Tx.id).Nodup
  bytes : m.bytesAvailable = maxMempoolSize - (m.txs.map size).sum
  space : 0 ≤ m.bytesAvailable

/-- The consumed UTXOs are the inputs of the transactions, which share none. -/
structure Tracked (m : Mempool) : Prop where
  disjoint : m.txs.Pairwise fun x y => List.Disjoint x.unsigned.inputIDs y.unsigned.inputIDs
  consumed : ∀ id, id ∈ m.consumedUTXOs ↔ ∃ tx ∈ m.txs, id ∈ tx.unsigned.inputIDs

variable {size : Tx → Nat} {T : Set Tx} {m m' : Mempool} {tx : Tx} {P : Mempool → Prop}
  {m : Mempool}

namespace Counted

/-- A transaction comes in. -/
theorem insert (h : m.Counted size T) (hperm : m'.txs.Perm (tx :: m.txs)) (htx : tx ∈ T)
    (hnew : ∀ t ∈ m.txs, t.id ≠ tx.id) (hbytes : m'.bytesAvailable = m.bytesAvailable - size tx)
    (hfits : size tx ≤ m.bytesAvailable) : m'.Counted size T where
  known := by
    intro t ht
    rcases mem_cons.mp (hperm.subset ht) with rfl | ht
    · exact htx
    · exact h.known t ht
  nodup := by
    rw [(hperm.map Tx.id).nodup_iff, map_cons, nodup_cons]
    refine ⟨fun hmem => ?_, h.nodup⟩
    obtain ⟨t, ht, hid⟩ := mem_map.mp hmem
    exact hnew t ht hid
  bytes := by
    rw [hbytes, h.bytes, (hperm.map size).sum_eq, map_cons, sum_cons]
    omega
  space := by
    omega

/-- A transaction leaves. -/
theorem erase (h : m.Counted size T) (hperm : m.txs.Perm (tx :: m'.txs))
    (hbytes : m'.bytesAvailable = m.bytesAvailable + size tx) : m'.Counted size T where
  known := fun t ht => h.known t (hperm.symm.subset (mem_cons_of_mem tx ht))
  nodup := by
    have hnodup := h.nodup
    rw [(hperm.map Tx.id).nodup_iff, map_cons, nodup_cons] at hnodup
    exact hnodup.2
  bytes := by
    have hbytes' := h.bytes
    rw [(hperm.map size).sum_eq, map_cons, sum_cons] at hbytes'
    omega
  space := by
    have hspace := h.space
    omega

/-- What is neither in the heaps nor a number of bytes does not matter. -/
theorem of_eq (h : m.Counted size T) (htxs : m'.txs = m.txs)
    (hbytes : m'.bytesAvailable = m.bytesAvailable) : m'.Counted size T := by
  refine ⟨?_, ?_, ?_, ?_⟩
  · rw [htxs]
    exact h.known
  · rw [htxs]
    exact h.nodup
  · rw [htxs, hbytes]
    exact h.bytes
  · rw [hbytes]
    exact h.space

end Counted

namespace Tracked

/-- A transaction comes in and its inputs are consumed. -/
theorem insert (h : m.Tracked) (hperm : m'.txs.Perm (tx :: m.txs))
    (hconsumed : m'.consumedUTXOs = m.consumedUTXOs ∪ tx.unsigned.inputIDs.toFinset)
    (hdisjoint : Disjoint m.consumedUTXOs tx.unsigned.inputIDs.toFinset) : m'.Tracked where
  disjoint := by
    rw [hperm.pairwise_iff fun h => h.symm, pairwise_cons]
    refine ⟨fun t ht id hid hid' => ?_, h.disjoint⟩
    exact Finset.disjoint_left.mp hdisjoint ((h.consumed id).mpr ⟨t, ht, hid'⟩)
      (mem_toFinset.mpr hid)
  consumed := by
    intro id
    rw [hconsumed, Finset.mem_union, mem_toFinset, h.consumed]
    constructor
    · rintro (⟨t, ht, hid⟩ | hid)
      · exact ⟨t, hperm.symm.subset (mem_cons_of_mem tx ht), hid⟩
      · exact ⟨tx, hperm.symm.subset mem_cons_self, hid⟩
    rintro ⟨t, ht, hid⟩
    rcases mem_cons.mp (hperm.subset ht) with rfl | ht
    · exact .inr hid
    · exact .inl ⟨t, ht, hid⟩

/-- A transaction leaves and its inputs are free. -/
theorem erase (h : m.Tracked) (hperm : m.txs.Perm (tx :: m'.txs))
    (hconsumed : m'.consumedUTXOs = m.consumedUTXOs \ tx.unsigned.inputIDs.toFinset) :
    m'.Tracked := by
  have hdisjoint := h.disjoint
  rw [hperm.pairwise_iff fun h => h.symm, pairwise_cons] at hdisjoint
  refine ⟨hdisjoint.2, fun id => ?_⟩
  rw [hconsumed, Finset.mem_sdiff, mem_toFinset, h.consumed]
  constructor
  · rintro ⟨⟨t, ht, hid⟩, hnot⟩
    rcases mem_cons.mp (hperm.subset ht) with rfl | ht
    · exact absurd hid hnot
    · exact ⟨t, ht, hid⟩
  rintro ⟨t, ht, hid⟩
  exact ⟨⟨t, hperm.symm.subset (mem_cons_of_mem tx ht), hid⟩, fun hid' => hdisjoint.1 t ht hid' hid⟩

theorem of_eq (h : m.Tracked) (htxs : m'.txs = m.txs)
    (hconsumed : m'.consumedUTXOs = m.consumedUTXOs) : m'.Tracked := by
  refine ⟨?_, fun id => ?_⟩
  · rw [htxs]
    exact h.disjoint
  · rw [htxs, hconsumed]
    exact h.consumed id

end Tracked

/-! ## Operations -/

/-- A transaction has left the mempool. -/
structure Leaves (size : Tx → Nat) (tx : Tx) (m m' : Mempool) : Prop where
  perm : m.txs.Perm (tx :: m'.txs)
  bytes : m'.bytesAvailable = m.bytesAvailable + size tx
  consumed : m'.consumedUTXOs = m.consumedUTXOs \ tx.unsigned.inputIDs.toFinset

theorem Leaves.counted (h : Leaves size tx m m') (hm : m.Counted size T) : m'.Counted size T :=
  hm.erase h.perm h.bytes

theorem Leaves.tracked (h : Leaves size tx m m') (hm : m.Tracked) : m'.Tracked :=
  hm.erase h.perm h.consumed

/-- The heap of decisions loses a transaction. -/
theorem leaves_decision {heap : TxHeap}
    (hperm : m.unissuedDecisionTxs.list.Perm (tx :: heap.list)) :
    Leaves size tx m ({ m with unissuedDecisionTxs := heap }.deregister size tx) :=
  ⟨hperm.append_right _, rfl, rfl⟩

/-- The heap of proposals loses a transaction. -/
theorem leaves_proposal {heap : TxHeap}
    (hperm : m.unissuedProposalTxs.list.Perm (tx :: heap.list)) :
    Leaves size tx m ({ m with unissuedProposalTxs := heap }.deregister size tx) :=
  ⟨(hperm.append_left _).trans perm_middle, rfl, rfl⟩

theorem popProposalTx_leaves (h : m.popProposalTx size = some (tx, m')) : Leaves size tx m m' := by
  obtain ⟨p, hp, heq⟩ := Option.map_eq_some_iff.mp h
  cases heq
  exact leaves_proposal (list_removeTop hp).2

/-- A transaction with the ID of the one that is removed is that one. -/
theorem removeDecisionTx_leaves (hT : Set.InjOn Tx.id T) (hm : m.Counted size T) (htx : tx ∈ T) :
    m.removeDecisionTx size tx = m ∨ Leaves size tx m (m.removeDecisionTx size tx) := by
  rw [removeDecisionTx]
  split
  · rename_i p hp
    obtain ⟨hid, hperm⟩ := list_remove hp
    have hmem : p.1 ∈ m.txs := mem_append_left _ (hperm.symm.subset mem_cons_self)
    obtain rfl : p.1 = tx := hT (hm.known _ hmem) htx hid
    exact .inr (leaves_decision hperm)
  · exact .inl rfl

theorem removeProposalTx_leaves (hT : Set.InjOn Tx.id T) (hm : m.Counted size T) (htx : tx ∈ T) :
    m.removeProposalTx size tx = m ∨ Leaves size tx m (m.removeProposalTx size tx) := by
  rw [removeProposalTx]
  split
  · rename_i p hp
    obtain ⟨hid, hperm⟩ := list_remove hp
    have hmem : p.1 ∈ m.txs := mem_append_right _ (hperm.symm.subset mem_cons_self)
    obtain rfl : p.1 = tx := hT (hm.known _ hmem) htx hid
    exact .inr (leaves_proposal hperm)
  · exact .inl rfl

/-- What a loop that only takes transactions out keeps. -/
theorem popDecisionTxs_rule (hstep : ∀ tx m m', P m → Leaves size tx m m' → P m') (fuel : Nat)
    (h : P m) (maxTxsBytes : Nat) : P (popDecisionTxsFuel size fuel m maxTxsBytes).2 := by
  induction fuel generalizing m maxTxsBytes with
  | zero => exact h
  | succ fuel ih =>
    rw [popDecisionTxsFuel]
    split
    · rename_i tx tx' heap hpeek htop
      split
      · exact h
      obtain ⟨hpeek', hperm⟩ := list_removeTop htop
      rw [hpeek] at hpeek'
      cases hpeek'
      exact ih (hstep tx m _ h (leaves_decision hperm)) _
    · exact h

theorem removeDecisionTxs_rule (hT : Set.InjOn Tx.id T) (hcounted : ∀ m, P m → m.Counted size T)
    (hleave : ∀ tx m m', P m → Leaves size tx m m' → P m') {txs : List Tx}
    (htxs : ∀ tx ∈ txs, tx ∈ T) (h : P m) : P (m.removeDecisionTxs size txs) := by
  induction txs generalizing m with
  | nil => exact h
  | cons tx txs ih =>
    rw [forall_mem_cons] at htxs
    apply ih htxs.2
    rcases removeDecisionTx_leaves hT (hcounted m h) htxs.1 with heq | hl
    · rw [heq]
      exact h
    · exact hleave tx m _ h hl

/-- `Add` of a transaction that is let in. -/
theorem add_eq_ok (h : m.add size tx = .ok m') :
    m'.txs.Perm (tx :: m.txs) ∧ (∀ t ∈ m.txs, t.id ≠ tx.id) ∧
      m'.bytesAvailable = m.bytesAvailable - size tx ∧ size tx ≤ m.bytesAvailable ∧
      m'.consumedUTXOs = m.consumedUTXOs ∪ tx.unsigned.inputIDs.toFinset ∧
      Disjoint m.consumedUTXOs tx.unsigned.inputIDs.toFinset := by
  obtain ⟨-, h⟩ := then_eq_ok.mp h
  obtain ⟨hhas, h⟩ := then_eq_ok.mp h
  obtain ⟨-, h⟩ := then_eq_ok.mp h
  obtain ⟨hfits, h⟩ := then_eq_ok.mp h
  obtain ⟨hdisjoint, h⟩ := then_eq_ok.mp h
  obtain ⟨m1, hm1, h⟩ := bind_eq_ok.mp h
  cases h
  have hhas := failIf_eq_ok.mp hhas
  rw [has, Option.not_isSome_iff_eq_none, get, Option.or_eq_none_iff] at hhas
  obtain ⟨hdecision, hproposal⟩ := hhas
  have hnew : ∀ t ∈ m.txs, t.id ≠ tx.id := by
    intro t ht
    rcases mem_append.mp ht with ht | ht
    · exact get_eq_none.mp hdecision t ht
    · exact get_eq_none.mp hproposal t ht
  have hissue : m1 = m.addDecisionTx size tx ∨ m1 = m.addProposalTx size tx := by
    rw [issue] at hm1
    split at hm1
    all_goals first
      | cases hm1; exact .inl rfl
      | cases hm1; exact .inr rfl
      | cases hm1
  refine ⟨?_, hnew, ?_, not_lt.mp (failIf_eq_ok.mp hfits), ?_,
    not_not.mp (failIf_eq_ok.mp hdisjoint)⟩
  · rcases hissue with rfl | rfl
    · exact (list_add hdecision).append_right _
    · exact ((list_add hproposal).append_left _).trans perm_middle
  · rcases hissue with rfl | rfl
    · rfl
    · rfl
  · rcases hissue with rfl | rfl
    · rfl
    · rfl

/-- The proposal that is popped and put back counts as before, unlike its inputs. -/
theorem putBack_eq_some (hm : m.Counted size T)
    (h : (m.popProposalTx size).map (fun p => p.2.addProposalTx size p.1) = some m') :
    m'.txs.Perm m.txs ∧ m'.bytesAvailable = m.bytesAvailable ∧ ∃ p, m.popProposalTx size = some p ∧
        m'.consumedUTXOs = m.consumedUTXOs \ p.1.unsigned.inputIDs.toFinset := by
  obtain ⟨⟨tx, m1⟩, hpop, heq⟩ := Option.map_eq_some_iff.mp h
  cases heq
  have hleaves := popProposalTx_leaves hpop
  have hnodup := hm.nodup
  rw [(hleaves.perm.map Tx.id).nodup_iff, map_cons, nodup_cons] at hnodup
  have hnew : m1.unissuedProposalTxs.get tx.id = none := by
    rw [get_eq_none]
    intro t ht hid
    exact hnodup.1 (hid ▸ mem_map_of_mem (mem_append_right _ ht))
  have hperm : (m1.addProposalTx size tx).txs.Perm (tx :: m1.txs) :=
    ((list_add hnew).append_left _).trans perm_middle
  refine ⟨hperm.trans hleaves.perm.symm, ?_, (tx, m1), hpop, hleaves.consumed⟩
  show m1.bytesAvailable - size tx = m.bytesAvailable
  rw [hleaves.bytes]
  omega

/-! ## Runs -/

/-- What the VM and the builder do with the mempool. -/
inductive Op where
  | add (tx : Tx)
  | popDecisionTxs (maxTxsBytes : Nat)
  | popProposalTx
  | removeDecisionTxs (txs : List Tx)
  | removeProposalTx (tx : Tx)
  | markDropped (txID : ID) (reason : String)
  | getDropReason (txID : ID)
  | enableAdding
  | disableAdding
  /-- The builder takes a proposal and puts it back. -/
  | putBack

/-- The transactions an operation is given. -/
def Op.txs : Op → List Tx
  | .add tx => [tx]
  | .removeDecisionTxs txs => txs
  | .removeProposalTx tx => [tx]
  | _ => []

/-- One operation, `none` if it panics. `Add` that returns an error changes nothing. -/
def step (size : Tx → Nat) (m : Mempool) : Op → Option Mempool
  | .add tx => some ((m.add size tx).toOption.getD m)
  | .popDecisionTxs maxTxsBytes => some (m.popDecisionTxs size maxTxsBytes).2
  | .popProposalTx => (m.popProposalTx size).map (·.2)
  | .removeDecisionTxs txs => some (m.removeDecisionTxs size txs)
  | .removeProposalTx tx => some (m.removeProposalTx size tx)
  | .markDropped txID reason => some (m.markDropped txID reason)
  | .getDropReason txID => some (m.getDropReason txID).2
  | .enableAdding => some m.enableAdding
  | .disableAdding => some m.disableAdding
  | .putBack => (m.popProposalTx size).map fun p => p.2.addProposalTx size p.1

/-- A run from a new mempool. -/
def run (size : Tx → Nat) (ops : List Op) : Option Mempool := ops.foldlM (step size) new

/-- What the operations other than `Add` and putting back keep: whatever a transaction that
    leaves keeps and the bookkeeping says. -/
theorem step_rule (hT : Set.InjOn Tx.id T)
    (hcounted : ∀ m, P m → m.Counted size T)
    (hleave : ∀ tx m m', P m → Leaves size tx m m' → P m')
    (hsame : ∀ m m', P m → m'.txs = m.txs → m'.bytesAvailable = m.bytesAvailable →
      m'.consumedUTXOs = m.consumedUTXOs → P m')
    (hadd : ∀ tx ∈ T, ∀ m m', P m → m.add size tx = .ok m' → P m') {op : Op}
    (hop : ∀ tx ∈ op.txs, tx ∈ T) (hput : op ≠ .putBack) (h : P m) (hstep : m.step size op = some m') :
    P m' := by
  cases op with
  | add tx =>
    cases hstep
    cases hm : m.add size tx with
    | error e => exact h
    | ok m1 => exact hadd tx (hop tx mem_cons_self) m m1 h hm
  | popDecisionTxs maxTxsBytes =>
    cases hstep
    exact popDecisionTxs_rule hleave _ h _
  | popProposalTx =>
    obtain ⟨⟨tx, m1⟩, hpop, heq⟩ := Option.map_eq_some_iff.mp hstep
    cases heq
    exact hleave tx m _ h (popProposalTx_leaves hpop)
  | removeDecisionTxs txs =>
    cases hstep
    exact removeDecisionTxs_rule hT hcounted hleave hop h
  | removeProposalTx tx =>
    cases hstep
    rcases removeProposalTx_leaves hT (hcounted m h) (hop tx mem_cons_self) with heq | hl
    · rw [heq]
      exact h
    · exact hleave tx m _ h hl
  | markDropped txID reason =>
    cases hstep
    exact hsame m _ h rfl rfl rfl
  | getDropReason txID =>
    cases hstep
    rw [getDropReason]
    split
    · exact hsame m _ h rfl rfl rfl
    · exact h
  | enableAdding =>
    cases hstep
    exact hsame m _ h rfl rfl rfl
  | disableAdding =>
    cases hstep
    exact hsame m _ h rfl rfl rfl
  | putBack => exact absurd rfl hput

theorem add_counted (htx : tx ∈ T) (hm : m.Counted size T) (h : m.add size tx = .ok m') :
    m'.Counted size T := by
  obtain ⟨hperm, hnew, hbytes, hfits, -, -⟩ := add_eq_ok h
  exact hm.insert hperm htx hnew hbytes hfits

theorem step_counted (hT : Set.InjOn Tx.id T) {op : Op} (hop : ∀ tx ∈ op.txs, tx ∈ T)
    (hm : m.Counted size T) (hstep : m.step size op = some m') : m'.Counted size T := by
  by_cases hput : op = .putBack
  · subst hput
    obtain ⟨hperm, hbytes, -⟩ := putBack_eq_some hm hstep
    refine ⟨fun t ht => hm.known t (hperm.subset ht), ?_, ?_, ?_⟩
    · rw [(hperm.map Tx.id).nodup_iff]
      exact hm.nodup
    · rw [hbytes, (hperm.map size).sum_eq]
      exact hm.bytes
    · rw [hbytes]
      exact hm.space
  exact step_rule (P := fun m => m.Counted size T) hT (fun _ h => h)
    (fun _ _ _ h hl => hl.counted h) (fun _ _ h htxs hbytes _ => h.of_eq htxs hbytes)
    (fun _ htx _ _ h hadd => add_counted htx h hadd) hop hput hm hstep

/-- What is put back has no inputs. -/
def PutsBackNoInputs (size : Tx → Nat) (m : Mempool) (op : Op) : Prop :=
  op = .putBack → ∀ p, m.popProposalTx size = some p → p.1.unsigned.inputIDs = []

theorem step_tracked (hT : Set.InjOn Tx.id T) {op : Op} (hop : ∀ tx ∈ op.txs, tx ∈ T)
    (hput : m.PutsBackNoInputs size op) (hm : m.Counted size T) (ht : m.Tracked)
    (hstep : m.step size op = some m') : m'.Tracked := by
  by_cases hback : op = .putBack
  · subst hback
    obtain ⟨hperm, -, p, hp, hconsumed⟩ := putBack_eq_some hm hstep
    rw [hput rfl p hp, toFinset_nil, Finset.sdiff_empty] at hconsumed
    refine ⟨?_, fun id => ?_⟩
    · rw [hperm.pairwise_iff fun h => h.symm]
      exact ht.disjoint
    · rw [hconsumed, ht.consumed]
      exact exists_congr fun t => and_congr_left' hperm.mem_iff.symm
  have hrule := step_rule (P := fun m => m.Counted size T ∧ m.Tracked) hT (fun _ h => h.1)
    (fun _ _ _ h hl => ⟨hl.counted h.1, hl.tracked h.2⟩)
    (fun _ _ h htxs hbytes hconsumed => ⟨h.1.of_eq htxs hbytes, h.2.of_eq htxs hconsumed⟩)
    (fun _ htx _ _ h hadd => ?_) hop hback ⟨hm, ht⟩ hstep
  · exact hrule.2
  · obtain ⟨hperm, -, -, -, hconsumed, hdisjoint⟩ := add_eq_ok hadd
    exact ⟨add_counted htx h.1 hadd, h.2.insert hperm hconsumed hdisjoint⟩

theorem new_counted : new.Counted size T :=
  ⟨by simp [txs, new, list, empty], by simp [txs, new, list, empty],
    by simp [txs, new, list, empty], by simp [new]⟩

theorem new_tracked : new.Tracked :=
  ⟨by simp [txs, new, list, empty], by simp [txs, new, list, empty]⟩

/-- The induction over the operations of a run. -/
theorem foldlM_bookkeeping (hT : Set.InjOn Tx.id T) {ops : List Op}
    (hops : ∀ op ∈ ops, ∀ tx ∈ op.txs, tx ∈ T) (hm : m.Counted size T)
    (hrun : ops.foldlM (step size) m = some m') :
    m'.Counted size T ∧
      (m.Tracked → ops.Throughout (PutsBackNoInputs size) (step size) m → m'.Tracked) := by
  induction ops generalizing m with
  | nil =>
    cases hrun
    exact ⟨hm, fun ht _ => ht⟩
  | cons op ops ih =>
    rw [forall_mem_cons] at hops
    obtain ⟨m1, hm1, hrun⟩ := Option.bind_eq_some_iff.mp hrun
    obtain ⟨hcounted, htracked⟩ := ih hops.2 (step_counted hT hops.1 hm hm1) hrun
    refine ⟨hcounted, fun ht hput => ?_⟩
    exact htracked (step_tracked hT hops.1 hput.1 hm ht hm1) (hput.2 m1 hm1)

/-- After every run a transaction is in the mempool once, the bytes that are left are those its
    transactions do not use and never negative; and if what was put back had no inputs, the
    consumed UTXOs are the inputs of the transactions, no two of which share one. -/
theorem run_bookkeeping (size : Tx → Nat) {T : Set Tx} (hT : Set.InjOn Tx.id T) {ops : List Op}
    (hops : ∀ op ∈ ops, ∀ tx ∈ op.txs, tx ∈ T) {m : Mempool} (hrun : run size ops = some m) :
    m.Counted size T ∧ (ops.Throughout (PutsBackNoInputs size) (step size) new → m.Tracked) := by
  obtain ⟨hcounted, htracked⟩ := foldlM_bookkeeping hT hops new_counted hrun
  exact ⟨hcounted, htracked new_tracked⟩

/-- A proposal. -/
def proposal (id : ID) (ins : List TransferableInput) : Tx :=
  { id
    unsigned := .addValidator
      { base :=
          { networkID := 1
            blockchainID := ID.empty
            outs := []
            ins
            memo := [] }
        validator := { nodeID := ⟨5⟩, start := 1000, stop := 1100, wght := 100 }
        stake := []
        rewardsOwner := { locktime := 0, threshold := 0, addrs := [] }
        shares := 0 }
    creds := [] }

/-- A proposal with one input. -/
def spender (id : ID) : Tx :=
  proposal id
    [{ utxoID := { txID := ⟨7⟩, outputIndex := 0 }
       assetID := ⟨42⟩
       input := { locktime := none, input := { amt := 100, input := ⟨[0]⟩ } } }]

/-- The bookkeeping after a proposal without inputs was put back and another one came in. -/
theorem run_bookkeeping_putBack : ∃ m,
    run (fun _ => 100) [.add (proposal ⟨2⟩ []), .putBack, .add (spender ⟨1⟩)] = some m ∧
      m.txs = [proposal ⟨2⟩ [], spender ⟨1⟩] ∧ m.Tracked := by
  have hrun : (run (fun _ => 100) [.add (proposal ⟨2⟩ []), .putBack, .add (spender ⟨1⟩)]).map txs =
      some [proposal ⟨2⟩ [], spender ⟨1⟩] := by decide +kernel
  obtain ⟨m, hm, htxs⟩ := Option.map_eq_some_iff.mp hrun
  have hpop : ((new.step (fun _ => 100) (.add (proposal ⟨2⟩ []))).bind
      (popProposalTx fun _ => 100)).map (·.1.unsigned.inputIDs) = some [] := by decide +kernel
  refine ⟨m, hm, htxs, (run_bookkeeping (fun _ => 100) (T := {proposal ⟨2⟩ [], spender ⟨1⟩})
    ?_ ?_ hm).2 ⟨fun h => ?_, fun m₁ hm₁ => ⟨fun _ p hp => ?_, fun _ _ => ⟨fun h => ?_, fun _ _ => trivial⟩⟩⟩⟩
  · rintro _ (rfl | rfl) _ (rfl | rfl) h <;> first | rfl | cases h
  · simp [Op.txs]
  · cases h
  · rw [hm₁, Option.bind_some, hp] at hpop
    exact Option.some.inj hpop
  · cases h

/-- A proposal is put back, and a second one that spends its input is let in. -/
theorem exists_shared_input : ∃ m v w, v ∈ m.txs ∧ w ∈ m.txs ∧ v.id ≠ w.id ∧
    ¬List.Disjoint v.unsigned.inputIDs w.unsigned.inputIDs ∧
    run (fun _ => 100) [.add v, .putBack, .add w] = some m := by
  have hrun : (run (fun _ => 100) [.add (spender ⟨1⟩), .putBack, .add (spender ⟨2⟩)]).map txs =
      some [spender ⟨1⟩, spender ⟨2⟩] := by decide +kernel
  obtain ⟨m, hm, htxs⟩ := Option.map_eq_some_iff.mp hrun
  refine ⟨m, spender ⟨1⟩, spender ⟨2⟩, ?_, ?_, by decide, fun h => ?_, hm⟩
  · rw [htxs]
    exact mem_cons_self
  · rw [htxs]
    exact mem_cons_of_mem _ mem_cons_self
  · exact h mem_cons_self mem_cons_self

end Mempool

end SavannahNode.PlatformVM
