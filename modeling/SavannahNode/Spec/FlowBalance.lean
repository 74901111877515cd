import SavannahNode.Native.FlowCheck

/-!
# What the flow check guarantees

A transaction that passes `VerifySpendUTXOs` produces, of every asset, at most what the UTXOs
it consumes hold, with the fee counted as produced. The amounts are moved through four maps
on the way, and a locked amount may be covered by an unlocked one, but not the other way round.
What the loops compute is the sum of the amounts at each place, an asset or a lock.

## Key results

* `verifySpendUTXOs_balanced` — produced amounts are covered.
* `verifySpendUTXOs_locked` — locked amounts stay under their lock.
-/

namespace SavannahNode.PlatformVM

open Except List Amounts

/-- The asset and amount of an output. -/
def TransferableOutput.entry (o : TransferableOutput) : ID × Nat := (o.assetID, o.out.amount)

/-- The asset and amount of a UTXO. -/
def UTXO.entry (u : UTXO) : ID × Nat := (u.assetID, u.out.amount)

/-- The amount of an asset in a list of amounts. -/
def amountOf (assetID : ID) (l : List (ID × Nat)) : Nat := l.countWhere (decide <| · = assetID)

theorem amountOf_append (assetID : ID) (l l' : List (ID × Nat)) :
    amountOf assetID (l ++ l') = amountOf assetID l + amountOf assetID l' :=
  countWhere_append _ l l'

theorem amountOf_cons (assetID : ID) (p : ID × Nat) (l : List (ID × Nat)) :
    amountOf assetID (p :: l) = amountOf assetID [p] + amountOf assetID l :=
  amountOf_append assetID [p] l

/-- Where an amount is counted: with an asset, or under a lock. -/
abbrev Place := ID ⊕ LockKey

def Place.assetID : Place → ID := Sum.elim id LockKey.assetID

/-- The lock of an output. -/
def Output.lockKey (assetID : ID) (out : Output) : LockKey :=
  { assetID, locktime := out.locktime.getD 0, owner := out.out.owners }

/-- An output with its place at a time. -/
def placed (now : Nat) (assetID : ID) (out : Output) : Place × Nat :=
  (if out.locktime.getD 0 ≤ now then .inl assetID else .inr (out.lockKey assetID), out.amount)

/-- The amount at a place. -/
def sumAt (place : Place) (entries : List (Place × Nat)) : Nat :=
  entries.countWhere (decide <| · = place)

theorem countWhere_placed {α : Type} (now : Nat) (asset : α → ID) (out : α → Output) (id : ID)
    (l : List α) : (l.map fun x => placed now (asset x) (out x)).countWhere
      (decide <| Place.assetID · = id) = amountOf id (l.map fun x => (asset x, (out x).amount)) := by
  induction l with
  | nil => rfl
  | cons x l ih =>
    have hasset : Place.assetID (placed now (asset x) (out x)).1 = asset x := by
      rw [placed]
      dsimp only
      split <;> rfl
    rw [map_cons, countWhere_cons, ih, map_cons, amountOf_cons, hasset]
    simp [amountOf, countWhere_cons, placed]

namespace Amounts

/-- The amount at a place. -/
def amountAt (a : Amounts) : Place → Nat
  | .inl id => a.unlocked.countOf id
  | .inr key => a.locked.countOf key

/-- Add to the amount at a place. -/
def bump (a : Amounts) : Place × Nat → Amounts
  | (.inl id, amount) => { a with unlocked := a.unlocked.bump id amount }
  | (.inr key, amount) => { a with locked := a.locked.bump key amount }

/-- The amount of an asset, locked or not. -/
def total (a : Amounts) (assetID : ID) : Nat :=
  amountOf assetID a.unlocked + a.locked.countWhere (decide <| ·.assetID = assetID)

/-- The keys of both maps are different. -/
def Keyed (a : Amounts) : Prop := (a.unlocked.map Prod.fst).Nodup ∧ (a.locked.map Prod.fst).Nodup

variable {a a' : Amounts} {entries : List (Place × Nat)}

theorem bump_of_addUnlocked {id : ID} {amount : Nat} (h : a.addUnlocked id amount = .ok a') :
    a' = a.bump (.inl id, amount) := by
  obtain ⟨n, -, h⟩ := bind_eq_ok.mp h
  exact (ok.inj h).symm

theorem bump_of_addLocked {key : LockKey} {amount : Nat} (h : a.addLocked key amount = .ok a') :
    a' = a.bump (.inr key, amount) := by
  obtain ⟨n, -, h⟩ := bind_eq_ok.mp h
  exact (ok.inj h).symm

theorem amountAt_bump (e : Place × Nat) (place : Place) :
    (a.bump e).amountAt place = a.amountAt place + sumAt place [e] := by
  obtain ⟨id | key, amount⟩ := e <;> obtain id' | key' := place <;>
    simp [bump, amountAt, sumAt, countWhere_cons, countOf_bump, eq_comm] <;> grind

theorem amountAt_foldl (place : Place) :
    (entries.foldl bump a).amountAt place = a.amountAt place + sumAt place entries := by
  induction entries generalizing a with
  | nil => rfl
  | cons e entries ih =>
    rw [foldl_cons, ih, amountAt_bump, Nat.add_assoc]
    congr 1
    exact (countWhere_append _ [e] entries).symm

theorem total_foldl (id : ID) : (entries.foldl bump a).total id =
    a.total id + entries.countWhere (decide <| Place.assetID · = id) := by
  induction entries generalizing a with
  | nil => rfl
  | cons e entries ih =>
    rw [foldl_cons, ih, countWhere_cons]
    obtain ⟨id' | key, amount⟩ := e <;>
      simp [total, bump, amountOf, countWhere_bump, Place.assetID] <;> grind

theorem Keyed.foldl (h : a.Keyed) : (entries.foldl bump a).Keyed := by
  induction entries generalizing a with
  | nil => exact h
  | cons e entries ih =>
    apply ih
    obtain ⟨id | key, amount⟩ := e
    · exact ⟨nodup_bump h.1, h.2⟩
    · exact ⟨h.1, nodup_bump h.2⟩

end Amounts

/-! ## Inputs and outputs -/

section

variable {fx : Fx} {clk : Time} {utx : UnsignedTx} {outs : List TransferableOutput}

/-- An input adds the amount of its UTXO. -/
theorem consumeInput_ok {i : TransferableInput} {cred : Credential} {u : UTXO}
    (h : consumeInput fx clk utx a i cred u = .ok a') :
    u.assetID = i.assetID ∧ a' = a.bump (placed clk.unixSeconds u.assetID u.out) := by
  simp only [consumeInput, bind_eq_ok, exists_unit, failIf_eq_ok, not_not] at h
  obtain ⟨hasset, -, -, htransfer, h⟩ := h
  simp only [Fx.verifyTransfer, then_eq_ok, failIf_eq_ok, not_not] at htransfer
  rw [placed, Output.amount, htransfer.2.2.1]
  split at h <;> rename_i hlocked
  · exact ⟨hasset, by rw [if_pos hlocked, bump_of_addUnlocked h]⟩
  · exact ⟨hasset, by rw [if_neg hlocked, bump_of_addLocked h]; rfl⟩

theorem produceOutput_ok {o : TransferableOutput} (h : produceOutput a o = .ok a') :
    a' = a.bump (placed 0 o.assetID o.out) := by
  rw [produceOutput] at h
  rw [placed]
  split at h <;> rename_i hlocked
  · rw [if_pos hlocked.le, bump_of_addUnlocked h]
  · rw [if_neg (by omega), bump_of_addLocked h]
    rfl

theorem consumeInputs_ok {l : List (TransferableInput × Credential × UTXO)}
    (h : l.foldlM (fun a p => consumeInput fx clk utx a p.1 p.2.1 p.2.2) a = .ok a') :
    (∀ p ∈ l, p.2.2.assetID = p.1.assetID) ∧
      a' = (l.map fun p => placed clk.unixSeconds p.2.2.assetID p.2.2.out).foldl bump a := by
  induction l generalizing a with
  | nil =>
    cases h
    exact ⟨fun p hp => absurd hp not_mem_nil, rfl⟩
  | cons p l ih =>
    obtain ⟨a1, h1, h⟩ := bind_eq_ok.mp h
    obtain ⟨hasset, rfl⟩ := consumeInput_ok h1
    obtain ⟨hassets, ha'⟩ := ih h
    exact ⟨forall_mem_cons.mpr ⟨hasset, hassets⟩, ha'⟩

theorem produceOutputs_ok (h : outs.foldlM produceOutput a = .ok a') :
    a' = (outs.map fun o => placed 0 o.assetID o.out).foldl bump a := by
  induction outs generalizing a with
  | nil =>
    cases h
    rfl
  | cons o outs ih =>
    obtain ⟨a1, h1, h⟩ := bind_eq_ok.mp h
    rw [map_cons, foldl_cons, ← produceOutput_ok h1]
    exact ih h

/-- The UTXOs of the inputs. -/
theorem map_zip_utxos {ins : List TransferableInput} {creds : List Credential} {utxos : List UTXO}
    {β : Type} (f : UTXO → β) (hcreds : ins.length = creds.length)
    (hutxos : ins.length = utxos.length) :
    (ins.zip (creds.zip utxos)).map (fun p => f p.2.2) = utxos.map f := by
  have hmap : (ins.zip (creds.zip utxos)).map (fun p => f p.2.2) =
      (((ins.zip (creds.zip utxos)).map Prod.snd).map Prod.snd).map f := by
    simp only [map_map, Function.comp_def]
  rw [hmap, map_snd_zip (by rw [length_zip]; omega), map_snd_zip (by omega)]

end

/-! ## The final comparison -/

section

variable {locked l : List (LockKey × Nat)} {unlocked unlocked' : ID → Nat} {p : LockKey × Nat}

/-- By how much the locked amounts of an asset increase. -/
def increase (locked l : List (LockKey × Nat)) (assetID : ID) : Nat :=
  (l.map fun p => (p.1, p.2 - locked.countOf p.1)).countWhere (decide <| ·.assetID = assetID)

theorem coverLocked_iff : coverLocked locked unlocked p = .ok unlocked' ↔
    (∀ id, increase locked [p] id ≤ unlocked id) ∧
      unlocked' = fun id => unlocked id - increase locked [p] id := by
  have hone : ∀ id, increase locked [p] id =
      if p.1.assetID = id then p.2 - locked.countOf p.1 else 0 := by
    simp [increase, countWhere_cons]
  simp only [coverLocked, hone, funext_iff]
  split
  · split
    · refine iff_of_false (fun h => by cases h) fun h => ?_
      have := h.1 p.1.assetID
      grind
    · simp only [ok.injEq, funext_iff, Function.update_apply]
      grind
  · simp only [ok.injEq, funext_iff]
    grind

/-- The loop over the locked amounts takes the increase from the unlocked amounts. -/
theorem coverAll_iff : l.foldlM (coverLocked locked) unlocked = .ok unlocked' ↔
    (∀ id, increase locked l id ≤ unlocked id) ∧
      unlocked' = fun id => unlocked id - increase locked l id := by
  induction l generalizing unlocked with
  | nil => simp [increase, pure, Except.pure, eq_comm]
  | cons p l ih =>
    have hcons : ∀ id, increase locked (p :: l) id =
        increase locked [p] id + increase locked l id := fun id =>
      countWhere_append _ [(p.1, p.2 - locked.countOf p.1)] _
    simp only [foldlM_cons, bind_eq_ok, coverLocked_iff, ih, hcons]
    constructor
    · rintro ⟨_, ⟨hle, rfl⟩, hrest, rfl⟩
      grind
    · rintro ⟨h, rfl⟩
      exact ⟨_, ⟨fun id => by grind, rfl⟩, fun id => by grind, by grind⟩

/-- The order in which Go ranges over the locked amounts does not matter. -/
theorem coverAll_perm {l' : List (LockKey × Nat)} (h : l.Perm l') :
    l.foldlM (coverLocked locked) unlocked = .ok unlocked' ↔
      l'.foldlM (coverLocked locked) unlocked = .ok unlocked' := by
  have hincrease : increase locked l = increase locked l' := by
    funext id
    exact (((h.map _).filter _).map _).sum_eq
  rw [coverAll_iff, coverAll_iff, hincrease]

/-- What locked amounts were produced is covered by what was consumed locked and by the
    increase. -/
theorem countWhere_le_increase (locked l : List (LockKey × Nat)) (id : ID) :
    l.countWhere (decide <| ·.assetID = id) ≤
      (l.map fun p => (p.1, locked.countOf p.1)).countWhere (decide <| ·.assetID = id) +
        increase locked l id := by
  induction l with
  | nil => exact Nat.zero_le _
  | cons p l ih =>
    simp only [increase, map_cons, countWhere_cons] at ih ⊢
    split <;> omega

/-- The locks of an asset have a part in the increase. -/
theorem sum_sub_le_increase (locked : List (LockKey × Nat)) (hn : (l.map Prod.fst).Nodup)
    {keys : List LockKey} (hkeys : keys.Nodup) {id : ID} (hid : ∀ key ∈ keys, key.assetID = id) :
    (keys.map fun key => l.countOf key - locked.countOf key).sum ≤ increase locked l id := by
  have hcount : ∀ key, (l.map fun p => (p.1, p.2 - locked.countOf p.1)).countOf key =
      l.countOf key - locked.countOf key := by
    intro key
    clear hn
    induction l with
    | nil => simp
    | cons p l ih =>
      rw [map_cons, countOf_cons, countOf_cons, ih]
      grind
  have hkeys' : ((keys.map fun key => (key, 0)).map Prod.fst).Nodup := by
    simpa [Function.comp_def] using hkeys
  have hle := countWhere_countOf_le (P := (decide <| ·.assetID = id))
    (l := l.map fun p => (p.1, p.2 - locked.countOf p.1)) (by rwa [map_map]) hkeys'
  refine le_trans (le_of_eq ?_) hle
  rw [map_map, countWhere, filter_eq_self.mpr (by simpa using hid), map_map]
  simp only [Function.comp_def, hcount]

end

/-- Every unlocked amount is at most the unlocked amount left. -/
theorem countOf_le_of_forM {l : List (ID × Nat)} {unlocked : ID → Nat}
    (h : l.forM (fun p => failIf (p.2 > unlocked p.1) Err.producesMoreUnlocked) = .ok ()) (id : ID) :
    l.countOf id ≤ unlocked id := by
  rcases Nat.eq_zero_or_pos (l.countOf id) with hzero | hpos
  · omega
  · exact not_lt.mp (failIf_eq_ok.mp (forM_eq_ok.mp h _ (mem_of_countOf_pos hpos)))

section

variable {fx : Fx} {clk : Time} {utx : UnsignedTx} {utxos : List UTXO}
  {ins : List TransferableInput} {outs : List TransferableOutput} {creds : List Credential}
  {fee : List (ID × Nat)}

/-- The maps `VerifySpendUTXOs` fills from the UTXOs. -/
def consumed (clk : Time) (utxos : List UTXO) : Amounts :=
  (utxos.map fun u => placed clk.unixSeconds u.assetID u.out).foldl bump ⟨[], []⟩

/-- The maps it fills from the outputs, where the fee is. -/
def produced (fee : List (ID × Nat)) (outs : List TransferableOutput) : Amounts :=
  (outs.map fun o => placed 0 o.assetID o.out).foldl bump ⟨fee, []⟩

/-- What is produced unlocked, and the increase of the locked amounts, is consumed unlocked. -/
theorem verifySpendUTXOs_ok (h : verifySpendUTXOs fx clk utx utxos ins outs creds fee = .ok ()) :
    List.Forall₂ (fun i u => u.assetID = i.assetID) ins utxos ∧ ∀ id,
      increase (consumed clk utxos).locked (produced fee outs).locked id +
        (produced fee outs).amountAt (.inl id) ≤ (consumed clk utxos).amountAt (.inl id) := by
  simp only [verifySpendUTXOs, bind_eq_ok, exists_unit, failIf_eq_ok, not_not, coverAll_iff] at h
  obtain ⟨hcreds, hutxos, c, hconsumed, p, hproduced, left, ⟨hle, hleft⟩, h⟩ := h
  obtain ⟨hassets, rfl⟩ := consumeInputs_ok hconsumed
  obtain rfl := produceOutputs_ok hproduced
  rw [map_zip_utxos (fun u => placed clk.unixSeconds u.assetID u.out) hcreds hutxos] at hle hleft
  refine ⟨?_, fun id => ?_⟩
  · rw [forall₂_iff_zip]
    refine ⟨hutxos, fun {i u} hmem => ?_⟩
    obtain ⟨n, hn, hget⟩ := mem_iff_getElem.mp hmem
    rw [getElem_zip, Prod.mk.injEq] at hget
    rw [length_zip] at hn
    have hlen : n < (ins.zip (creds.zip utxos)).length := by
      rw [length_zip, length_zip]
      omega
    have hthis := hassets _ (getElem_mem hlen)
    simp only [getElem_zip] at hthis
    rw [hget.1, hget.2] at hthis
    exact hthis
  · have hunlocked := countOf_le_of_forM h id
    have hincrease := hle id
    simp only [hleft] at hunlocked
    simp only [amountAt, consumed, produced]
    omega

/-- A transaction that passes the check produces no more of an asset than it consumes. -/
theorem verifySpendUTXOs_balanced (hfee : (fee.map Prod.fst).Nodup)
    (h : verifySpendUTXOs fx clk utx utxos ins outs creds fee = .ok ()) :
    List.Forall₂ (fun i u => u.assetID = i.assetID) ins utxos ∧
      ∀ assetID, amountOf assetID fee + amountOf assetID (outs.map TransferableOutput.entry) ≤
        amountOf assetID (utxos.map UTXO.entry) := by
  obtain ⟨hassets, h⟩ := verifySpendUTXOs_ok h
  refine ⟨hassets, fun assetID => ?_⟩
  have hckeyed : (consumed clk utxos).Keyed := Keyed.foldl ⟨nodup_nil, nodup_nil⟩
  have hpkeyed : (produced fee outs).Keyed := Keyed.foldl ⟨hfee, nodup_nil⟩
  have hc : (consumed clk utxos).total assetID = 0 + amountOf assetID (utxos.map UTXO.entry) := by
    rw [consumed, total_foldl, countWhere_placed]
    rfl
  have hp : (produced fee outs).total assetID =
      amountOf assetID fee + amountOf assetID (outs.map TransferableOutput.entry) := by
    rw [produced, total_foldl, countWhere_placed]
    rfl
  rw [total, amountOf, countWhere_eq_countOf hckeyed.1] at hc
  rw [total, amountOf, countWhere_eq_countOf hpkeyed.1] at hp
  have hcovered := h assetID
  simp only [amountAt] at hcovered
  have hincrease := countWhere_le_increase (consumed clk utxos).locked
    (produced fee outs).locked assetID
  have hlocked := countWhere_countOf_le (P := (decide <| ·.assetID = assetID)) hckeyed.2 hpkeyed.2
  omega

/-- **Locked amounts**: what an accepted transaction produces of an asset without a lock, with the
    fee, and what it adds under locks, comes from what it consumes of the asset unlocked. So a
    locked amount is never unlocked, and gets to no other owner or locktime. -/
theorem verifySpendUTXOs_locked (hfee : (fee.map Prod.fst).Nodup)
    (h : verifySpendUTXOs fx clk utx utxos ins outs creds fee = .ok ()) (assetID : ID)
    (keys : List LockKey) (hn : keys.Nodup) (hkeys : ∀ key ∈ keys, key.assetID = assetID) :
    fee.countOf assetID + sumAt (.inl assetID) (outs.map fun o => placed 0 o.assetID o.out) +
        (keys.map fun key => sumAt (.inr key) (outs.map fun o => placed 0 o.assetID o.out) -
          sumAt (.inr key) (utxos.map fun u => placed clk.unixSeconds u.assetID u.out)).sum ≤
      sumAt (.inl assetID) (utxos.map fun u => placed clk.unixSeconds u.assetID u.out) := by
  have hpkeyed : (produced fee outs).Keyed := Keyed.foldl ⟨hfee, nodup_nil⟩
  have hcovered := (verifySpendUTXOs_ok h).2 assetID
  have hadded := sum_sub_le_increase (consumed clk utxos).locked hpkeyed.2 hn hkeys
  -- the maps of locked amounts have the sums over the locks
  have hsums : (keys.map fun key => (produced fee outs).locked.countOf key -
      (consumed clk utxos).locked.countOf key) = keys.map fun key =>
        sumAt (.inr key) (outs.map fun o => placed 0 o.assetID o.out) -
          sumAt (.inr key) (utxos.map fun u => placed clk.unixSeconds u.assetID u.out) := by
    refine map_congr_left fun key _ => ?_
    show amountAt _ (.inr key) - amountAt _ (.inr key) = _
    rw [consumed, produced, amountAt_foldl, amountAt_foldl]
    simp [amountAt]
  rw [hsums] at hadded
  simp only [consumed, produced, amountAt_foldl] at hcovered hadded
  simp only [amountAt, countOf_nil] at hcovered
  omega

/-- An output of an owner. -/
def ownedOutput (locktime : Option Nat) (amt : Nat) : Output :=
  { locktime, out := { amt, owners := { locktime := 0, threshold := 1, addrs := [⟨7⟩] } } }

/-- At time 50, an amount of 5 that is locked until 100 and one of 10 that is not are spent. Under
    the lock 1 is added, and 3 are locked until 200. -/
def lockedSpend : Except Err Unit :=
  verifySpendUTXOs { bootstrapped := true, recover := fun _ _ => some ⟨7⟩ } (.unix 50)
    (.advanceTime 0)
    [⟨⟨⟨0⟩, 0⟩, ⟨42⟩, ownedOutput (some 100) 5⟩, ⟨⟨⟨0⟩, 1⟩, ⟨42⟩, ownedOutput none 10⟩]
    [⟨⟨⟨0⟩, 0⟩, ⟨42⟩, some 100, 5, ⟨[0]⟩⟩, ⟨⟨⟨0⟩, 1⟩, ⟨42⟩, none, 10, ⟨[0]⟩⟩]
    [⟨⟨42⟩, ownedOutput (some 100) 6⟩, ⟨⟨42⟩, ownedOutput (some 200) 3⟩,
      ⟨⟨42⟩, ownedOutput none 4⟩]
    [⟨[0]⟩, ⟨[0]⟩] [(⟨42⟩, 2)]

theorem verifySpendUTXOs_locked_twoLocks : lockedSpend = .ok () ∧ 2 + 4 + (1 + 3) ≤ 10 :=
  ⟨by decide +kernel, verifySpendUTXOs_locked (by decide)
    (show lockedSpend = .ok () by decide +kernel) ⟨42⟩
    [(ownedOutput (some 100) 0).lockKey ⟨42⟩, (ownedOutput (some 200) 0).lockKey ⟨42⟩]
    (by decide) (by decide)⟩

end

/-- The UTXOs that inputs name in a map. -/
theorem lookups_ok {α : Type} {e : Err} {f : α → Option UTXO} {l : List α} {utxos : List UTXO}
    (h : l.mapM (fun a => ofOption e (f a)) = .ok utxos) :
    List.Forall₂ (fun a u => f a = some u) l utxos :=
  (mapM_ok h).imp fun _ _ hu => ofOption_eq_ok.mp hu

end SavannahNode.PlatformVM
