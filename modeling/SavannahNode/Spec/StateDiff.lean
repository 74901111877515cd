import SavannahNode.Spec.FlowBalance
import SavannahNode.Spec.StakerSets

/-!
# Reading through a diff

Every operation of a diff has its meaning in the state that is read through it: the
operations of `Chain` in this module. For stakers this needs the diff to fit the state below
(`DiffStakers.Changes`), for everything else it is unconditional.

## Key results

* `Diff.Reads` — what a diff presents over its parent state, kept by all its operations.
-/

namespace SavannahNode.PlatformVM

open List

/-! ## Operations of the state that is read -/

namespace Chain

/-- Some UTXOs are removed. -/
def deleteUTXOs (c : Chain) (ids : List UTXOID) : Chain :=
  { c with utxo := fun id => if id ∈ ids then none else c.utxo id }

/-- Some UTXOs are added. -/
def addUTXOs (c : Chain) (utxos : List UTXO) : Chain :=
  { c with utxo := utxos.foldl (fun f u => Function.update f u.utxoID (some u)) c.utxo }

/-- A transaction is recorded. -/
def addTx (c : Chain) (tx : Tx) (status : TxStatus) : Chain :=
  { c with tx := Function.update c.tx tx.id (some (tx, status)) }

/-- A subnet is added. -/
def addSubnet (c : Chain) (tx : Tx) : Chain := { c with subnets := c.subnets ++ [tx] }

/-- A blockchain is added to a subnet. -/
def addChain (c : Chain) (tx : Tx) (subnetID : ID) : Chain :=
  { c with chains := Function.update c.chains subnetID (c.chains subnetID ++ [tx]) }

variable {c : Chain} {utxos : List UTXO} {u : UTXO} {id : UTXOID}

theorem addUTXOs_cons (u : UTXO) (utxos : List UTXO) : c.addUTXOs (u :: utxos) =
      Chain.addUTXOs { c with utxo := Function.update c.utxo u.utxoID (some u) } utxos :=
  rfl

theorem utxo_addUTXOs_of_notMem
    (h : id ∉ utxos.map UTXO.utxoID) : (c.addUTXOs utxos).utxo id = c.utxo id := by
  induction utxos generalizing c with
  | nil => rfl
  | cons u utxos ih =>
    rw [map_cons, mem_cons, not_or] at h
    rw [addUTXOs_cons, ih h.2]
    exact Function.update_of_ne h.1 ..

theorem utxo_addUTXOs_of_mem (hn : (utxos.map UTXO.utxoID).Nodup)
    (h : u ∈ utxos) : (c.addUTXOs utxos).utxo u.utxoID = some u := by
  induction utxos generalizing c with
  | nil => exact absurd h not_mem_nil
  | cons w utxos ih =>
    rw [map_cons, nodup_cons] at hn
    rw [addUTXOs_cons]
    rcases mem_cons.mp h with rfl | h
    · rw [utxo_addUTXOs_of_notMem hn.1]
      exact Function.update_self ..
    · exact ih hn.2 h

theorem utxo_addUTXOs_cases
    (hn : (utxos.map UTXO.utxoID).Nodup) (h : (c.addUTXOs utxos).utxo id = some u) :
    u ∈ utxos ∧ u.utxoID = id ∨ id ∉ utxos.map UTXO.utxoID ∧ c.utxo id = some u := by
  by_cases hid : id ∈ utxos.map UTXO.utxoID
  · obtain ⟨w, hw, rfl⟩ := mem_map.mp hid
    rw [utxo_addUTXOs_of_mem hn hw] at h
    cases h
    exact .inl ⟨hw, rfl⟩
  rw [utxo_addUTXOs_of_notMem hid] at h
  exact .inr ⟨hid, h⟩

theorem utxo_deleteUTXOs {ids : List UTXOID} :
    (c.deleteUTXOs ids).utxo id = some u ↔ id ∉ ids ∧ c.utxo id = some u := by
  rw [deleteUTXOs]
  dsimp only
  split
  · simp [*]
  · simp [*]

end Chain

/-! ## The UTXOs of a transaction's outputs -/

theorem mem_utxosFrom {txID : ID} {start : Nat} {outs : List TransferableOutput}
    (h : u ∈ utxosFrom txID start outs) :
    u.utxoID.txID = txID ∧ start ≤ u.utxoID.outputIndex ∧
      u.utxoID.outputIndex < start + outs.length := by
  obtain ⟨p, hp, rfl⟩ := mem_map.mp h
  have hle := le_snd_of_mem_zipIdx hp
  have hlt := snd_lt_add_of_mem_zipIdx hp
  exact ⟨rfl, hle, hlt⟩

theorem nodup_utxosFrom (txID : ID) (start : Nat) (outs : List TransferableOutput) :
    ((utxosFrom txID start outs).map UTXO.utxoID).Nodup := by
  rw [utxosFrom, map_map]
  have hmap : (outs.zipIdx start).map (UTXO.utxoID ∘ fun p =>
      { utxoID := { txID, outputIndex := p.2 }, assetID := p.1.assetID, out := p.1.out }) =
      (range' start outs.length).map fun k => ({ txID, outputIndex := k } : UTXOID) := by
    rw [← zipIdx_map_snd start outs, map_map]
    rfl
  rw [hmap]
  refine Nodup.map (fun a b h => ?_) nodup_range'
  exact congrArg UTXOID.outputIndex h

/-! ## Operations of the diff -/

namespace Diff

variable (d : Diff) (p : Chain)

theorem read_deleteUTXOs (ids : List UTXOID) :
    (ids.foldl Diff.deleteUTXO d).read p = (d.read p).deleteUTXOs ids := by
  induction ids generalizing d with
  | nil => simp [Chain.deleteUTXOs]
  | cons id ids ih =>
    rw [foldl_cons, ih]
    rw [Chain.deleteUTXOs, Chain.deleteUTXOs]
    simp only [deleteUTXO, read, Finmap.lookup_insert_ite, mem_cons]
    congr 1
    funext id'
    by_cases hid : id' = id
    · simp [hid]
    · simp [hid]

theorem read_consume (ins : List TransferableInput) :
    (d.consume ins).read p = (d.read p).deleteUTXOs (ins.map (·.utxoID)) := by
  rw [← read_deleteUTXOs, consume, foldl_map]

theorem read_addUTXOs (utxos : List UTXO) :
    (utxos.foldl Diff.addUTXO d).read p = (d.read p).addUTXOs utxos := by
  induction utxos generalizing d with
  | nil => rfl
  | cons u utxos ih =>
    rw [foldl_cons, ih, Chain.addUTXOs, Chain.addUTXOs, foldl_cons]
    have hutxo : ((d.addUTXO u).read p).utxo =
        Function.update (d.read p).utxo u.utxoID (some u) := by
      funext id
      simp only [addUTXO, read, Finmap.lookup_insert_ite]
      by_cases hid : id = u.utxoID
      · subst hid
        simp
      · simp [hid]
    rw [hutxo]
    rfl

theorem read_addTx (tx : Tx) (status : TxStatus) :
    (d.addTx tx status).read p = (d.read p).addTx tx status := by
  simp only [addTx, read, Finmap.lookup_insert_ite]
  congr 1
  funext id
  by_cases hid : id = tx.id
  · subst hid
    simp
  · simp [hid]

theorem read_addSubnet (tx : Tx) : (d.addSubnet tx).read p = (d.read p).addSubnet tx := by
  simp [addSubnet, Chain.addSubnet, read]

theorem read_addChain (tx : Tx) (subnetID : ID) :
    (d.addChain tx subnetID).read p = (d.read p).addChain tx subnetID := by
  simp only [addChain, read, Finmap.lookup_insert_ite]
  congr 1
  funext id
  by_cases hid : id = subnetID
  · subst hid
    simp
  · simp [hid]

end Diff

/-- The diff presents the state `c` over the state `p`. -/
structure Diff.Reads (d : Diff) (p c : Chain) : Prop where
  current : d.currentStakerDiffs.Changes p.current c.current
  pending : d.pendingStakerDiffs.Changes p.pending c.pending
  read_eq : d.read p = c

namespace Diff.Reads

variable {d : Diff} {p c : Chain}

theorem new (hcurrent : p.current.Coherent) (hpending : p.pending.Coherent) (parentID : ID) :
    (Diff.new parentID p).Reads p p where
  current := .empty hcurrent
  pending := .empty hpending
  read_eq := by
    have hc := (DiffStakers.Changes.empty hcurrent).read_eq
    have hp := (DiffStakers.Changes.empty hpending).read_eq
    simp only [Diff.read, Diff.new, hc, hp]
    simp

/-- Operations that leave the stakers alone. -/
theorem of_read {d' : Diff} {c' : Chain} (h : d.Reads p c)
    (hcurrent : d'.currentStakerDiffs = d.currentStakerDiffs)
    (hpending : d'.pendingStakerDiffs = d.pendingStakerDiffs) (hc : c'.current = c.current)
    (hp : c'.pending = c.pending) (hread : d'.read p = c') : d'.Reads p c' where
  current := by rw [hcurrent, hc]; exact h.current
  pending := by rw [hpending, hp]; exact h.pending
  read_eq := hread

theorem stakers_deleteUTXOs (ids : List UTXOID) (d : Diff) :
    (ids.foldl Diff.deleteUTXO d).currentStakerDiffs = d.currentStakerDiffs ∧
      (ids.foldl Diff.deleteUTXO d).pendingStakerDiffs = d.pendingStakerDiffs := by
  induction ids generalizing d with
  | nil => exact ⟨rfl, rfl⟩
  | cons id ids ih => exact ih (d.deleteUTXO id)

theorem stakers_addUTXOs (utxos : List UTXO) (d : Diff) :
    (utxos.foldl Diff.addUTXO d).currentStakerDiffs = d.currentStakerDiffs ∧
      (utxos.foldl Diff.addUTXO d).pendingStakerDiffs = d.pendingStakerDiffs := by
  induction utxos generalizing d with
  | nil => exact ⟨rfl, rfl⟩
  | cons u utxos ih => exact ih (d.addUTXO u)

section

variable (h : d.Reads p c)

include h

theorem consume (ins : List TransferableInput) :
    (d.consume ins).Reads p (c.deleteUTXOs (ins.map (·.utxoID))) := by
  have hstakers := stakers_deleteUTXOs (ins.map (·.utxoID)) d
  rw [foldl_map] at hstakers
  exact h.of_read hstakers.1 hstakers.2 rfl rfl (by rw [d.read_consume, h.read_eq])

theorem addUTXOs (utxos : List UTXO) : (utxos.foldl Diff.addUTXO d).Reads p (c.addUTXOs utxos) :=
  h.of_read (stakers_addUTXOs utxos d).1 (stakers_addUTXOs utxos d).2 rfl rfl
    (by rw [d.read_addUTXOs, h.read_eq])

theorem produce (txID : ID) (outs : List TransferableOutput) :
    (d.produce txID outs).Reads p (c.addUTXOs (utxosFrom txID 0 outs)) :=
  h.addUTXOs _

theorem addTx (tx : Tx) (status : TxStatus) : (d.addTx tx status).Reads p (c.addTx tx status) :=
  h.of_read rfl rfl rfl rfl (by rw [d.read_addTx, h.read_eq])

theorem addSubnet (tx : Tx) : (d.addSubnet tx).Reads p (c.addSubnet tx) :=
  h.of_read rfl rfl rfl rfl (by rw [d.read_addSubnet, h.read_eq])

theorem addChain (tx : Tx) (subnetID : ID) :
    (d.addChain tx subnetID).Reads p (c.addChain tx subnetID) :=
  h.of_read rfl rfl rfl rfl (by rw [d.read_addChain, h.read_eq])

/-- The current stakers change. -/
theorem updateCurrent {ds : DiffStakers} {v : Stakers} (hs : ds.Changes p.current v) :
    { d with currentStakerDiffs := ds }.Reads p { c with current := v } where
  current := hs
  pending := h.pending
  read_eq := by
    obtain rfl := h.read_eq
    rw [← hs.read_eq]
    rfl

/-- The pending stakers change. -/
theorem updatePending {ds : DiffStakers} {v : Stakers} (hs : ds.Changes p.pending v) :
    { d with pendingStakerDiffs := ds }.Reads p { c with pending := v } where
  current := h.current
  pending := hs
  read_eq := by
    obtain rfl := h.read_eq
    rw [← hs.read_eq]
    rfl

end

end Diff.Reads

end SavannahNode.PlatformVM
