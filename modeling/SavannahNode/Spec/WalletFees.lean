import SavannahNode.Native.Wallet
import SavannahNode.Spec.Ledger

/-!
# What the wallet burns

Every input that the builder selects spends a UTXO of its backend, and of every asset the
inputs hold what the outputs hold plus what is burned. What a call burns is chosen per method,
and the executors choose the fee they ask for once more: the two agree for some fee
configurations only.

## Key results

- `Builder.spend_spec`: the inputs of `spend` are funded, and burn what they were asked to
- `Builder.locked_spend_iff`: when `spend` makes a locked input
- `Builder.build_made`: what a transaction burns, for every call
- `Builder.build_burns_fee`: exactly when that is the fee of the transaction
-/

namespace SavannahNode.Wallet

open Except Finmap List PlatformVM TransferableOutput

/-! ## Amounts -/

/-- The asset and amount of an input. -/
def entryOf (i : TransferableInput) : ID × Nat := (i.assetID, i.input.input.amt)

theorem amountOf_singleton (a assetID : ID) (n : Nat) :
    amountOf a [(assetID, n)] = if a = assetID then n else 0 := by
  rw [amountOf, countWhere_cons, countWhere_nil, Nat.add_zero]
  simp [eq_comm]

theorem amountOf_perm {l l' : List (ID × Nat)} (h : l.Perm l') (a : ID) :
    amountOf a l = amountOf a l' :=
  ((h.filter _).map _).sum_eq

theorem amountOf_sortInputs (ins : List TransferableInput) (a : ID) :
    amountOf a ((sortInputs ins).map entryOf) = amountOf a (ins.map entryOf) :=
  amountOf_perm ((perm_insertionSort _ ins).map _) a

theorem amountOf_sortOutputs (less : Output → Output → Bool) (outs : List TransferableOutput)
    (a : ID) :
    amountOf a ((sortOutputs less outs).map entry) =
      amountOf a (outs.map entry) :=
  amountOf_perm ((perm_insertionSort _ outs).map _) a

@[simp] theorem amount_empty (a : ID) : amount ∅ a = 0 := rfl

theorem amount_insert (m : IDMap Nat) (assetID : ID) (n : Nat) (a : ID) :
    amount (m.insert assetID n) a = if a = assetID then n else amount m a := by
  rw [amount, lookup_insert_ite]
  split <;> rfl

theorem amount_erase (m : IDMap Nat) (assetID a : ID) :
    amount (m.erase assetID) a = if a = assetID then 0 else amount m a := by
  rw [amount, lookup_erase_ite]
  split <;> rfl

theorem amount_singleton (assetID : ID) (n : Nat) (a : ID) :
    amount (singleton assetID n) a = if a = assetID then n else 0 := by
  rw [amount]
  by_cases h : a = assetID
  · subst h
    rw [if_pos rfl, lookup_singleton_eq]
    rfl
  rw [if_neg h, lookup_eq_none.mpr]
  · rfl
  · rw [Finmap.mem_singleton]
    exact h

theorem mem_entries {order : RangeOrder ID} {m : IDMap Nat} {p : ID × Nat} :
    p ∈ RangeOrder.entries order m ↔ m.lookup p.1 = some p.2 := by
  rw [RangeOrder.entries, mem_filterMap]
  constructor
  · rintro ⟨k, -, hk⟩
    obtain ⟨v, hv, rfl⟩ := Option.map_eq_some_iff.mp hk
    exact hv
  intro h
  refine ⟨p.1, (order.mem_list _ _).mpr ((mem_keys_iff _ _).mpr ⟨p.2, h⟩), ?_⟩
  rw [h]
  rfl

theorem nodup_entries (order : RangeOrder ID) (m : IDMap Nat) :
    ((RangeOrder.entries order m).map Prod.fst).Nodup := by
  have hsub : ((RangeOrder.entries order m).map Prod.fst).Sublist (order.list m.keys) := by
    rw [RangeOrder.entries, map_filterMap]
    have hid : ((order.list m.keys).filterMap fun k =>
        ((m.lookup k).map fun v => (k, v)).map Prod.fst) =
        (order.list m.keys).filter fun k => (m.lookup k).isSome := by
      rw [← filterMap_eq_filter]
      congr 1
      funext k
      cases hk : m.lookup k <;> simp [Option.guard, hk]
    rw [hid]
    exact filter_sublist
  exact hsub.nodup (order.nodup_list _)

/-- The entries of a map hold its amounts. -/
theorem amountOf_entries (order : RangeOrder ID) (m : IDMap Nat) (a : ID) :
    amountOf a (RangeOrder.entries order m) = amount m a := by
  rw [amountOf, countWhere_eq_countOf (nodup_entries order m), amount]
  cases hlook : m.lookup a with
  | none =>
    apply countOf_eq_zero_of_notMem
    intro hmem
    obtain ⟨p, hp, rfl⟩ := mem_map.mp hmem
    rw [mem_entries, hlook] at hp
    cases hp
  | some n => exact countOf_eq_of_mem (nodup_entries order m) (mem_entries.mpr hlook)

/-- When every entry is zero, every amount is. -/
theorem amount_eq_zero {order : RangeOrder ID} {m : IDMap Nat} {err : Nat → ID → Err}
    (h : (RangeOrder.entries order m).forM (fun p => failIf (p.2 ≠ 0) (err p.2 p.1)) = .ok ())
    (a : ID) : amount m a = 0 := by
  rw [amount]
  cases hlook : m.lookup a with
  | none => rfl
  | some n =>
    have hentry := forM_eq_ok.mp h (a, n) (mem_entries.mpr hlook)
    exact not_not.mp (failIf_eq_ok.mp hentry)

/-! ## Funded inputs -/

theorem UTXOs.get_eq_some {utxos : UTXOs} {id : UTXOID} {utxo : UTXO}
    (h : utxos.get id = some utxo) : utxo.utxoID = id := by
  obtain ⟨o, -, rfl⟩ := Option.map_eq_some_iff.mp h
  rfl

theorem UTXOs.mem_all_of_get {utxos : UTXOs} {order : RangeOrder UTXOID} {id : UTXOID} {utxo : UTXO}
    (h : utxos.get id = some utxo) : utxo ∈ utxos.all order := by
  refine mem_filterMap.mpr ⟨id, ?_, h⟩
  obtain ⟨o, ho, -⟩ := Option.map_eq_some_iff.mp h
  rw [order.mem_list, mem_keys_iff]
  exact ⟨o, ho⟩

theorem UTXOs.get_of_mem_all {utxos : UTXOs} {order : RangeOrder UTXOID} {utxo : UTXO}
    (h : utxo ∈ utxos.all order) : utxos.get utxo.utxoID = some utxo := by
  obtain ⟨id, -, hid⟩ := mem_filterMap.mp h
  rw [UTXOs.get_eq_some hid]
  exact hid

namespace Builder

variable {b : Builder} {r : Ranges} {ops : Options}

/-- The input spends a UTXO of the backend that the addresses of the builder can sign for. -/
def Funded (b : Builder) (ops : Options) (chainID : ID) (i : TransferableInput) : Prop :=
  ∃ utxo locktime sigIndices, (b.backend.utxos chainID).get i.utxoID = some utxo ∧
    i = inputOf utxo locktime sigIndices ∧
    matchOwners utxo.out.out.owners (b.addresses ops) ops.minIssuanceTime = some sigIndices

variable {chainID : ID} {ins : List TransferableInput}
  {change stake outputs : List TransferableOutput} {fee : Nat} {utx : UnsignedTx} {vdr : Validator}

theorem Funded.of_mem_all {order : RangeOrder UTXOID} {utxo : UTXO}
    (hutxo : utxo ∈ (b.backend.utxos chainID).all order) {sigIndices : List Nat}
    (hmatch : matchOwners utxo.out.out.owners (b.addresses ops) ops.minIssuanceTime =
      some sigIndices) (locktime : Option Nat) :
    b.Funded ops chainID (inputOf utxo locktime sigIndices) :=
  ⟨utxo, locktime, sigIndices, UTXOs.get_of_mem_all hutxo, rfl, hmatch⟩

/-- The UTXOs that funded inputs spend. -/
theorem exists_utxos (h : ∀ i ∈ ins, b.Funded ops chainID i) : ∃ utxos : List UTXO,
      List.Forall₂ (fun i u => (b.backend.utxos chainID).get i.utxoID = some u) ins utxos ∧
      utxos.map UTXO.entry = ins.map entryOf := by
  induction ins with
  | nil => exact ⟨[], .nil, rfl⟩
  | cons i ins ih =>
    rw [forall_mem_cons] at h
    obtain ⟨⟨utxo, locktime, sigIndices, hget, rfl, -⟩, hrest⟩ := h
    obtain ⟨utxos, hutxos, hentries⟩ := ih hrest
    refine ⟨utxo :: utxos, .cons hget hutxos, ?_⟩
    rw [map_cons, map_cons, hentries]
    rfl

/-! ## Selecting -/

/-- The invariant of `spend`: what the inputs hold is in the outputs, or burned. -/
structure Selected (b : Builder) (ops : Options) (toBurn toStake : IDMap Nat) (s : Spending) :
    Prop where
  funded : ∀ i ∈ s.inputs, b.Funded ops platformChainID i
  staked : ∀ a, amountOf a (s.stakeOutputs.map entry) + amount s.toStake a =
    amount toStake a
  balance : ∀ a, amountOf a (s.inputs.map entryOf) + amount s.toBurn a =
    amountOf a (s.changeOutputs.map entry) +
      amountOf a (s.stakeOutputs.map entry) + amount toBurn a

theorem selected_nil (b : Builder) (ops : Options) (toBurn toStake : IDMap Nat) :
    b.Selected ops toBurn toStake
      { toBurn, toStake, inputs := [], changeOutputs := [], stakeOutputs := [] } where
  funded i hi := by cases hi
  staked a := by simp [amountOf]
  balance a := by simp [amountOf]

/-- What is left over of an amount becomes an output unless it is zero. -/
theorem amountOf_leftover (utxo : UTXO) (locktime : Option Nat) (owners : OutputOwners) (n : Nat)
    (a : ID) :
    amountOf a ((if n > 0 then [outputOf utxo locktime n owners] else []).map
      entry) = if a = utxo.assetID then n else 0 := by
  split
  · exact amountOf_singleton a utxo.assetID n
  have hzero : n = 0 := by omega
  simp [hzero, amountOf]

variable {toBurn toStake : IDMap Nat} {s : Spending} {utxo : UTXO}

section

variable (h : b.Selected ops toBurn toStake s)
  (hutxo : utxo ∈ (b.backend.utxos platformChainID).all r.spends)

include h hutxo

theorem Selected.spendLocked :
    b.Selected ops toBurn toStake (spendLocked (b.addresses ops) ops.minIssuanceTime s utxo) := by
  rw [Wallet.spendLocked]
  split
  · exact h
  split
  · exact h
  rename_i locktime hlock
  split
  · exact h
  dsimp only
  split
  · exact h
  rename_i sigIndices hmatch
  have hstake : ∀ a, amountOf a ([outputOf utxo (some locktime)
        (min (amount s.toStake utxo.assetID) utxo.out.out.amt) utxo.out.out.owners].map
          entry) =
      if a = utxo.assetID then min (amount s.toStake utxo.assetID) utxo.out.out.amt else 0 :=
    fun a => amountOf_singleton a utxo.assetID _
  refine ⟨?_, ?_, ?_⟩
  · intro i hi
    rcases mem_append.mp hi with hi | hi
    · exact h.funded i hi
    rw [mem_singleton.mp hi]
    exact .of_mem_all hutxo hmatch _
  · intro a
    have hstaked := h.staked a
    rw [map_append, amountOf_append, hstake, amount_insert]
    split
    next ha =>
      subst ha
      omega
    next => omega
  intro a
  have hbal := h.balance a
  have hin : amountOf a ([inputOf utxo (some locktime) sigIndices].map entryOf) =
      if a = utxo.assetID then utxo.out.out.amt else 0 := amountOf_singleton a utxo.assetID _
  dsimp only
  rw [map_append, amountOf_append, map_append, amountOf_append, map_append,
    amountOf_append, amountOf_leftover, hin, hstake]
  split <;> omega

theorem Selected.spendUnlocked (changeOwner : OutputOwners) :
    b.Selected ops toBurn toStake
      (spendUnlocked (b.addresses ops) ops.minIssuanceTime changeOwner s utxo) := by
  rw [Wallet.spendUnlocked]
  dsimp only
  split
  · exact h
  split
  · exact h
  split
  · exact h
  rename_i sigIndices hmatch
  refine ⟨?_, ?_, ?_⟩
  · intro i hi
    rcases mem_append.mp hi with hi | hi
    · exact h.funded i hi
    rw [mem_singleton.mp hi]
    exact .of_mem_all hutxo hmatch _
  · intro a
    have hstaked := h.staked a
    rw [map_append, amountOf_append, amountOf_leftover, amount_insert]
    split
    next ha =>
      subst ha
      omega
    next => omega
  intro a
  have hbal := h.balance a
  have hin : amountOf a ([inputOf utxo none sigIndices].map entryOf) =
      if a = utxo.assetID then utxo.out.out.amt else 0 := amountOf_singleton a utxo.assetID _
  rw [map_append, amountOf_append, map_append, amountOf_append, map_append,
    amountOf_append, amountOf_leftover, amountOf_leftover, amount_insert, hin]
  split
  next ha =>
    subst ha
    omega
  next => omega

end

/-- What every UTXO keeps, the loops keep. -/
theorem select_selected (b : Builder) (r : Ranges) (ops : Options) (changeOwner : OutputOwners)
    (toBurn toStake : IDMap Nat) :
    b.Selected ops toBurn toStake (b.select r ops changeOwner toBurn toStake) := by
  have hlocked : b.Selected ops toBurn toStake
      (((b.backend.utxos platformChainID).all r.spends).foldl
        (Wallet.spendLocked (b.addresses ops) ops.minIssuanceTime)
        { toBurn, toStake, inputs := [], changeOutputs := [], stakeOutputs := [] }) :=
    foldlRecOn _ _ (b.selected_nil ops toBurn toStake) fun s hs utxo hutxo =>
      hs.spendLocked hutxo
  exact foldlRecOn _ _ hlocked fun s hs utxo hutxo => hs.spendUnlocked hutxo changeOwner

/-- `spend` burns and stakes exactly what it is asked to. -/
theorem spend_spec (h : b.spend r ops toBurn toStake = .ok (ins, change, stake)) :
    (∀ i ∈ ins, b.Funded ops platformChainID i) ∧
      ∀ a, amountOf a (stake.map entry) = amount toStake a ∧
        amountOf a (ins.map entryOf) = amountOf a (change.map entry) +
          amount toStake a + amount toBurn a := by
  obtain ⟨addr, -, h⟩ := bind_eq_ok.mp h
  obtain ⟨hstaked, h⟩ := then_eq_ok.mp h
  obtain ⟨hburned, h⟩ := then_eq_ok.mp h
  cases h
  have hsel := b.select_selected r ops
    (ops.changeOwner.getD { locktime := 0, threshold := 1, addrs := [addr] }) toBurn toStake
  refine ⟨?_, ?_⟩
  · intro i hi
    exact hsel.funded i ((perm_insertionSort _ _).mem_iff.mp hi)
  intro a
  have hbal := hsel.balance a
  have hstake := hsel.staked a
  rw [amount_eq_zero hburned a] at hbal
  rw [amount_eq_zero hstaked a] at hstake
  rw [amountOf_sortInputs, amountOf_sortOutputs, amountOf_sortOutputs]
  omega

/-! ## Locked inputs -/

/-- A UTXO of the asset that is locked beyond the minimum issuance time, and that the addresses
    of the builder can sign for. -/
def LockedFor (b : Builder) (ops : Options) (a : ID) (utxo : UTXO) : Prop :=
  utxo.assetID = a ∧ (∃ locktime, utxo.out.locktime = some locktime ∧
    ops.minIssuanceTime < locktime) ∧
    matchOwners utxo.out.out.owners (b.addresses ops) ops.minIssuanceTime ≠ none

/-- The wallet has such a UTXO. -/
def HoldsLocked (b : Builder) (ops : Options) (a : ID) : Prop :=
  ∃ id utxo, (b.backend.utxos platformChainID).get id = some utxo ∧ b.LockedFor ops a utxo

/-- The first loop leaves a UTXO alone, or makes a locked input of it, if its asset is still to
    be staked. -/
theorem spendLocked_cases (s : Spending) (utxo : UTXO) :
    (spendLocked (b.addresses ops) ops.minIssuanceTime s utxo = s ∧
      ¬ (0 < amount s.toStake utxo.assetID ∧ b.LockedFor ops utxo.assetID utxo)) ∨
    (∃ i, i.input.locktime ≠ none ∧
      (spendLocked (b.addresses ops) ops.minIssuanceTime s utxo).inputs = s.inputs ++ [i]) ∧
      0 < amount s.toStake utxo.assetID ∧ b.LockedFor ops utxo.assetID utxo := by
  rw [spendLocked]
  split
  · exact .inl ⟨rfl, by omega⟩
  rename_i hstake
  split
  · rename_i hlock
    refine .inl ⟨rfl, ?_⟩
    rintro ⟨-, -, ⟨locktime, hsome, -⟩, -⟩
    rw [hlock] at hsome
    cases hsome
  rename_i locktime hlock
  split
  · rename_i hpast
    refine .inl ⟨rfl, ?_⟩
    rintro ⟨-, -, ⟨locktime', hsome, hlt⟩, -⟩
    rw [hlock] at hsome
    cases hsome
    omega
  rename_i hpast
  dsimp only
  split
  · rename_i hmatch
    exact .inl ⟨rfl, fun h => h.2.2.2 hmatch⟩
  · rename_i hmatch
    refine .inr ⟨⟨_, Option.some_ne_none _, rfl⟩, by omega, rfl, ⟨locktime, hlock, by omega⟩, ?_⟩
    rw [hmatch]
    exact Option.some_ne_none _

/-- The second loop makes inputs that are not locked. -/
theorem mem_spendUnlocked {changeOwner : OutputOwners} {s : Spending} {i : TransferableInput}
    (hlock : i.input.locktime ≠ none) :
    i ∈ (spendUnlocked (b.addresses ops) ops.minIssuanceTime changeOwner s utxo).inputs ↔
      i ∈ s.inputs := by
  rw [spendUnlocked]
  dsimp only
  split
  · rfl
  split
  · rfl
  split
  · rfl
  dsimp only
  rw [mem_append, List.mem_singleton, or_iff_left]
  rintro rfl
  exact hlock rfl

/-- The first loop makes a locked input of the first UTXO that it can. -/
theorem locked_foldl_iff (utxos : List UTXO) (s : Spending) :
    (∃ i ∈ (utxos.foldl (spendLocked (b.addresses ops) ops.minIssuanceTime) s).inputs,
      i.input.locktime ≠ none) ↔ (∃ i ∈ s.inputs, i.input.locktime ≠ none) ∨
      ∃ utxo ∈ utxos, 0 < amount s.toStake utxo.assetID ∧ b.LockedFor ops utxo.assetID utxo := by
  induction utxos generalizing s with
  | nil => simp
  | cons utxo utxos ih =>
    rw [foldl_cons, ih, exists_mem_cons_iff]
    rcases spendLocked_cases s utxo with ⟨heq, hnot⟩ | ⟨⟨i, hlock, heq⟩, hsel⟩
    · rw [heq, or_iff_right hnot]
    · -- both sides hold from here on
      have hi : ∃ i ∈ (spendLocked (b.addresses ops) ops.minIssuanceTime s utxo).inputs,
          i.input.locktime ≠ none := ⟨i, by rw [heq]; simp, hlock⟩
      exact ⟨fun _ => .inr (.inl hsel), fun _ => .inl hi⟩

/-- `select` makes a locked input exactly when the wallet holds a locked UTXO of an asset that is
    to be staked. -/
theorem locked_select_iff (b : Builder) (r : Ranges) (ops : Options) (changeOwner : OutputOwners)
    (toBurn toStake : IDMap Nat) :
    (∃ i ∈ (b.select r ops changeOwner toBurn toStake).inputs, i.input.locktime ≠ none) ↔
      ∃ a, 0 < amount toStake a ∧ b.HoldsLocked ops a := by
  set utxos := (b.backend.utxos platformChainID).all r.spends with hutxos
  have hsecond : ∀ i, i.input.locktime ≠ none → ∀ s : Spending,
      (i ∈ (utxos.foldl (spendUnlocked (b.addresses ops) ops.minIssuanceTime changeOwner) s).inputs ↔
        i ∈ s.inputs) := fun i hlock s =>
    foldlRecOn (motive := fun s' : Spending => i ∈ s'.inputs ↔ i ∈ s.inputs) utxos _ Iff.rfl
      fun _ hs _ _ => (mem_spendUnlocked hlock).trans hs
  have hboth : (∃ i ∈ (b.select r ops changeOwner toBurn toStake).inputs, i.input.locktime ≠ none) ↔
      ∃ utxo ∈ utxos, 0 < amount toStake utxo.assetID ∧ b.LockedFor ops utxo.assetID utxo := by
    refine (exists_congr fun i => and_congr_left fun hlock => hsecond i hlock _).trans ?_
    rw [locked_foldl_iff, ← hutxos]
    simp
  rw [hboth]
  constructor
  · rintro ⟨utxo, hutxo, hstake, hlocked⟩
    exact ⟨utxo.assetID, hstake, utxo.utxoID, utxo, UTXOs.get_of_mem_all hutxo, hlocked⟩
  · rintro ⟨a, hstake, id, utxo, hget, hlocked⟩
    obtain rfl := hlocked.1
    exact ⟨utxo, UTXOs.mem_all_of_get hget, hstake, hlocked⟩

theorem locked_spend_iff (h : b.spend r ops toBurn toStake = .ok (ins, change, stake)) :
    (∃ i ∈ ins, i.input.locktime ≠ none) ↔ ∃ a, 0 < amount toStake a ∧ b.HoldsLocked ops a := by
  obtain ⟨addr, -, h⟩ := bind_eq_ok.mp h
  obtain ⟨-, h⟩ := then_eq_ok.mp h
  obtain ⟨-, h⟩ := then_eq_ok.mp h
  cases h
  rw [← locked_select_iff b r ops
    (ops.changeOwner.getD { locktime := 0, threshold := 1, addrs := [addr] }) toBurn toStake]
  exact exists_congr fun i => and_congr_left fun _ => (perm_insertionSort _ _).mem_iff

/-- What burns only makes no locked input. -/
theorem locktime_of_spend (h : b.spend r ops toBurn ∅ = .ok (ins, change, stake)) :
    ∀ i ∈ ins, i.input.locktime = none := by
  intro i hi
  by_contra hlock
  obtain ⟨a, hstake, -⟩ := (locked_spend_iff h).mp ⟨i, hi, hlock⟩
  rw [amount_empty] at hstake
  omega

/-! ## The calls -/

/-- What is burned for outputs that are made elsewhere. -/
theorem burnFor_spec {toBurn : IDMap Nat} (h : b.burnFor fee outputs = .ok toBurn) (a : ID) :
    amount toBurn a = amountOf a (outputs.map entry) +
      amountOf a [(b.backend.ctx.avaxAssetID, fee)] := by
  refine foldlM_ok_history (P := fun done toBurn => amount toBurn a =
    amountOf a (done.map entry) +
      amountOf a [(b.backend.ctx.avaxAssetID, fee)]) h ?_ ?_
  · rw [amount_singleton, amountOf_singleton, map_nil, amountOf, countWhere_nil, Nat.zero_add]
  · intro done out rest m m' _ hm hstep
    obtain ⟨sum, hsum, hm'⟩ := bind_eq_ok.mp hstep
    cases hm'
    have hadd := add64_eq_some (ofOption_eq_ok.mp hsum)
    rw [amount_insert, map_append, amountOf_append]
    have hout : amountOf a ([out].map entry) =
        if a = out.assetID then out.out.amount else 0 := amountOf_singleton a out.assetID _
    rw [hout]
    split
    next ha =>
      subst ha
      omega
    next => omega

/-- What the loop of `NewImportTx` has found. -/
structure Imported (b : Builder) (ops : Options) (chainID : ID) (i : Importing) : Prop where
  funded : ∀ input ∈ i.inputs, b.Funded ops chainID input
  unlocked : ∀ input ∈ i.inputs, input.input.locktime = none
  amounts : ∀ a, amount i.amounts a = amountOf a (i.inputs.map entryOf)

theorem Imported.importUTXO {i i' : Importing} (h : b.Imported ops chainID i)
    (hutxo : utxo ∈ (b.backend.utxos chainID).all r.imports)
    (hi' : b.importUTXO ops i utxo = .ok i') : b.Imported ops chainID i' := by
  rw [Builder.importUTXO] at hi'
  split at hi'
  · cases hi'
    exact h
  split at hi'
  · cases hi'
    exact h
  rename_i sigIndices hmatch
  obtain ⟨sum, hsum, hok⟩ := bind_eq_ok.mp hi'
  cases hok
  have hadd := add64_eq_some (ofOption_eq_ok.mp hsum)
  refine ⟨?_, ?_, ?_⟩
  · intro input hin
    rcases mem_append.mp hin with hin | hin
    · exact h.funded input hin
    rw [mem_singleton.mp hin]
    exact .of_mem_all hutxo hmatch none
  · intro input hin
    rcases mem_append.mp hin with hin | hin
    · exact h.unlocked input hin
    rw [mem_singleton.mp hin]
    rfl
  intro a
  have hin : amountOf a ([inputOf utxo none sigIndices].map entryOf) =
      if a = utxo.assetID then utxo.out.out.amt else 0 := amountOf_singleton a utxo.assetID _
  rw [amount_insert, map_append, amountOf_append, hin]
  have hamounts := h.amounts a
  split
  next ha =>
    subst ha
    omega
  next => omega

/-- The fee of an import is paid out of what is imported, and else out of the wallet. -/
theorem payImport_spec {amounts amounts' : IDMap Nat} {outs : List TransferableOutput}
    (h : b.payImport r ops amounts = .ok (ins, outs, amounts')) :
    (∀ i ∈ ins, b.Funded ops platformChainID i) ∧ (∀ i ∈ ins, i.input.locktime = none) ∧
      ∀ a, amountOf a (ins.map entryOf) + amount amounts a =
        amountOf a (outs.map entry) + amount amounts' a +
          amountOf a [(b.backend.ctx.avaxAssetID, b.backend.ctx.baseTxFee)] := by
  rw [payImport] at h
  dsimp only at h
  split at h
  · -- the imported AVAX pays the fee, and the rest of it is imported
    cases h
    refine ⟨by simp, by simp, fun a => ?_⟩
    rw [amount_insert, amountOf_singleton, map_nil, map_nil]
    split
    next ha =>
      subst ha
      omega
    next => omega
  split at h
  · -- the wallet pays what is missing
    obtain ⟨⟨ins', outs', stake'⟩, hspend, hok⟩ := bind_eq_ok.mp h
    cases hok
    obtain ⟨hfunded, hbal⟩ := spend_spec hspend
    refine ⟨hfunded, locktime_of_spend hspend, fun a => ?_⟩
    dsimp only
    rw [(hbal a).2, amount_empty, amount_singleton, amount_erase, amountOf_singleton]
    split
    next ha =>
      subst ha
      omega
    next => omega
  · -- the imported AVAX is the fee
    cases h
    refine ⟨by simp, by simp, fun a => ?_⟩
    rw [amount_erase, amountOf_singleton, map_nil, map_nil]
    split
    next ha =>
      subst ha
      omega
    next => omega

/-- The UTXOs that a transaction consumes and imports hold what it makes, and the fee. -/
def Burns (b : Builder) (utx : UnsignedTx) (fee : Nat) : Prop :=
  ∃ consumed taken : List UTXO,
    List.Forall₂ (fun i u => (b.backend.utxos platformChainID).get i.utxoID = some u)
      utx.ins consumed ∧
    List.Forall₂ (fun k u => (b.backend.utxos k.1).get k.2 = some u) utx.imported taken ∧
    ∀ a, amountOf a ((consumed ++ taken).map UTXO.entry) =
      amountOf a (utx.made.map entry) +
        amountOf a [(b.backend.ctx.avaxAssetID, fee)]

/-- A transaction that imports nothing. -/
theorem burns_of_funded (himported : utx.imported = [])
    (hfunded : ∀ i ∈ utx.ins, b.Funded ops platformChainID i)
    (hbal : ∀ a, amountOf a (utx.ins.map entryOf) =
      amountOf a (utx.made.map entry) +
        amountOf a [(b.backend.ctx.avaxAssetID, fee)]) : b.Burns utx fee := by
  obtain ⟨consumed, hconsumed, hentries⟩ := exists_utxos hfunded
  refine ⟨consumed, [], hconsumed, by rw [himported]; exact .nil, ?_⟩
  intro a
  rw [append_nil, hentries]
  exact hbal a

/-- Staking burns nothing. -/
theorem spend_stake_balanced {weight : Nat}
    (h : b.spend r ops ∅ (singleton b.backend.ctx.avaxAssetID weight) = .ok (ins, change, stake))
    (a : ID) :
    amountOf a (ins.map entryOf) =
      amountOf a ((change ++ (stake ++ [])).map entry) +
        amountOf a [(b.backend.ctx.avaxAssetID, 0)] := by
  obtain ⟨-, hbal⟩ := spend_spec h
  rw [append_nil, map_append, amountOf_append, (hbal a).1, (hbal a).2, amount_empty,
    amountOf_singleton]
  split <;> omega

/-- A fee is burned out of the change. -/
theorem spend_fee_balanced (h : b.spend r ops (singleton b.backend.ctx.avaxAssetID fee) ∅ =
      .ok (ins, change, stake)) (a : ID) :
    amountOf a (ins.map entryOf) =
      amountOf a ((change ++ ([] ++ [])).map entry) +
        amountOf a [(b.backend.ctx.avaxAssetID, fee)] := by
  obtain ⟨-, hbal⟩ := spend_spec h
  rw [append_nil, append_nil, (hbal a).2, amount_empty, amount_singleton,
    amountOf_singleton, Nat.add_zero]

theorem Imported.sorted_funded {i : Importing} (h : b.Imported ops chainID i) :
    ∀ input ∈ sortInputs i.inputs, b.Funded ops chainID input ∧ input.input.locktime = none := by
  intro input hin
  rw [sortInputs, (perm_insertionSort _ _).mem_iff] at hin
  exact ⟨h.funded input hin, h.unlocked input hin⟩

/-- What is burned is determined by the transaction. -/
theorem Burns.unique {fee' : Nat} (h : b.Burns utx fee) (h' : b.Burns utx fee') : fee = fee' := by
  obtain ⟨consumed, taken, hconsumed, htaken, hbal⟩ := h
  obtain ⟨consumed', taken', hconsumed', htaken', hbal'⟩ := h'
  have hfun : ∀ {κ : Type} {get : κ → Option UTXO} {l : List κ} {us us' : List UTXO},
      List.Forall₂ (fun k u => get k = some u) l us →
      List.Forall₂ (fun k u => get k = some u) l us' → us = us' := by
    intro κ get l us us' hus
    induction hus generalizing us' with
    | nil =>
      rintro ⟨⟩
      rfl
    | cons hu _ ih =>
      rintro (_ | ⟨hu', hus'⟩)
      rw [Option.some.inj (hu.symm.trans hu'), ih hus']
  obtain rfl := hfun hconsumed hconsumed'
  obtain rfl := hfun htaken htaken'
  have heq := (hbal b.backend.ctx.avaxAssetID).symm.trans (hbal' b.backend.ctx.avaxAssetID)
  rw [amountOf_singleton, amountOf_singleton, if_pos rfl, if_pos rfl] at heq
  omega

end Builder

/-! ## The fees of the node -/

/-- The fee that a call burns. -/
def Call.fee (ctx : Context) : Call → Nat
  | .baseTx _ => ctx.createSubnetTxFee
  | .addValidatorTx _ _ _ => 0
  | .addSubnetValidatorTx _ _ => ctx.createSubnetTxFee
  | .addDelegatorTx _ _ => 0
  | .createChainTx _ _ _ _ _ => ctx.createSubnetTxFee
  | .createSubnetTx _ => ctx.createSubnetTxFee
  | .importTx _ _ => ctx.baseTxFee
  | .exportTx _ _ => ctx.baseTxFee

/-- The AVAX that a call stakes. -/
def Call.staked : Call → Nat
  | .addValidatorTx vdr _ _ => vdr.wght
  | .addDelegatorTx vdr _ => vdr.wght
  | _ => 0

/-- The wallet has the fees of the node. -/
structure Context.SharedWith (ctx : Context) (config : Config) : Prop where
  baseTxFee : ctx.baseTxFee = config.txFee
  createSubnetTxFee : ctx.createSubnetTxFee = config.createSubnetTxFee
  createBlockchainTxFee : ctx.createBlockchainTxFee = config.createBlockchainTxFee

/-- The fee that the method burns is the one that the executor asks for at time `t`. The wallet
    burns the fee of a subnet for subnet validators and chains too, and none for stakers. -/
def Call.FeesAgree (config : Config) (t : Time) : Call → Prop
  | .baseTx _ => config.createSubnetTxFee = config.getCreateSubnetTxFee t
  | .addValidatorTx _ _ _ => config.addStakerTxFee = 0
  | .addSubnetValidatorTx _ _ => config.createSubnetTxFee = config.txFee
  | .addDelegatorTx _ _ => config.addStakerTxFee = 0
  | .createChainTx _ _ _ _ _ => config.createSubnetTxFee = config.getCreateBlockchainTxFee t
  | .createSubnetTx _ => config.createSubnetTxFee = config.getCreateSubnetTxFee t
  | .importTx _ _ => True
  | .exportTx _ _ => True

/-- The subnet was authorized, and what is imported can be signed for. -/
def Builder.Authorized (b : Builder) (ops : Options) : UnsignedTx → Prop
  | .addSubnetValidator tx => b.authorizeSubnet ops tx.subnet = .ok tx.subnetAuth
  | .createChain tx => b.authorizeSubnet ops tx.subnetID = .ok tx.subnetAuth
  | .importTx tx =>
    ∀ i ∈ tx.importedInputs, b.Funded ops tx.sourceChain i ∧ i.input.locktime = none
  | .advanceTime _ => False
  | .rewardValidator _ => False
  | _ => True

/-- What a call makes. Its fee is that of the transaction exactly where the two fees agree, and it
    has a locked input exactly where it stakes and the wallet holds locked AVAX. -/
structure Builder.Made (b : Builder) (ops : Options) (call : Call) (utx : UnsignedTx) : Prop where
  funded : ∀ i ∈ utx.ins, b.Funded ops platformChainID i
  authorized : b.Authorized ops utx
  burns : b.Burns utx (call.fee b.backend.ctx)
  fee_iff : ∀ config t, b.backend.ctx.SharedWith config →
    (call.fee b.backend.ctx = utx.fee config t ↔ call.FeesAgree config t)
  locked_iff : (∃ i ∈ utx.ins, i.input.locktime ≠ none) ↔
    0 < call.staked ∧ b.HoldsLocked ops b.backend.ctx.avaxAssetID

/-- The staking calls: what they stake is AVAX. -/
theorem Builder.locked_stake_iff {b : Builder} {r : Ranges} {ops : Options} {weight : Nat}
    {ins : List TransferableInput} {change stake : List TransferableOutput}
    (h : b.spend r ops ∅ (singleton b.backend.ctx.avaxAssetID weight) = .ok (ins, change, stake)) :
    (∃ i ∈ ins, i.input.locktime ≠ none) ↔
      0 < weight ∧ b.HoldsLocked ops b.backend.ctx.avaxAssetID := by
  rw [locked_spend_iff h]
  constructor
  · rintro ⟨a, hstake, hlocked⟩
    rw [amount_singleton] at hstake
    split at hstake
    · rename_i ha
      exact ⟨hstake, ha ▸ hlocked⟩
    · omega
  · rintro ⟨hweight, hlocked⟩
    refine ⟨_, ?_, hlocked⟩
    rw [amount_singleton, if_pos rfl]
    exact hweight

/-- The other calls. -/
theorem locked_iff_of_burn {ins : List TransferableInput}
    (h : ∀ i ∈ ins, i.input.locktime = none) (Q : Prop) :
    (∃ i ∈ ins, i.input.locktime ≠ none) ↔ 0 < 0 ∧ Q := by
  constructor
  · rintro ⟨i, hi, hlock⟩
    exact absurd (h i hi) hlock
  · rintro ⟨hlt, -⟩
    exact absurd hlt (Nat.lt_irrefl 0)

theorem Builder.build_made {b : Builder} {r : Ranges} {ops : Options} {call : Call}
    {utx : UnsignedTx} (h : b.build r ops call = .ok utx) : b.Made ops call utx := by
  -- the fee that the method reads is one of the two that the wallet shares with the node
  have hsubnet : ∀ (config : Config) (fee : Nat), b.backend.ctx.SharedWith config →
      (b.backend.ctx.createSubnetTxFee = fee ↔ config.createSubnetTxFee = fee) := by
    intro config fee hshared
    rw [hshared.createSubnetTxFee]
  have hbase : ∀ config, b.backend.ctx.SharedWith config →
      (b.backend.ctx.baseTxFee = config.txFee ↔ True) := fun _ hshared =>
    iff_true_intro hshared.baseTxFee
  cases call with
  | baseTx outputs =>
    obtain ⟨toBurn, hburn, h⟩ := bind_eq_ok.mp h
    obtain ⟨⟨ins, change, stake⟩, hspend, h⟩ := bind_eq_ok.mp h
    cases h
    obtain ⟨hfunded, hbal⟩ := spend_spec hspend
    refine ⟨hfunded, trivial, burns_of_funded rfl hfunded fun a => ?_,
      fun config _ => hsubnet config _, locked_iff_of_burn (locktime_of_spend hspend) _⟩
    -- the outputs and the change stand in one sorted list
    show amountOf a (ins.map entryOf) = amountOf a (map _ (sortOutputs _ _ ++ ([] ++ []))) + _
    rw [append_nil, append_nil, amountOf_sortOutputs, map_append, amountOf_append,
      (hbal a).2, burnFor_spec hburn a, amount_empty, Call.fee]
    omega
  | addValidatorTx vdr rewardsOwner shares =>
    obtain ⟨⟨ins, change, stake⟩, hspend, h⟩ := bind_eq_ok.mp h
    cases h
    have hfunded := (spend_spec hspend).1
    exact ⟨hfunded, trivial, burns_of_funded rfl hfunded (spend_stake_balanced hspend),
      fun _ _ _ => eq_comm, locked_stake_iff hspend⟩
  | addSubnetValidatorTx vdr subnet =>
    obtain ⟨⟨ins, change, stake⟩, hspend, h⟩ := bind_eq_ok.mp h
    obtain ⟨subnetAuth, hauth, h⟩ := bind_eq_ok.mp h
    cases h
    have hfunded := (spend_spec hspend).1
    exact ⟨hfunded, hauth, burns_of_funded rfl hfunded (spend_fee_balanced hspend),
      fun config _ => hsubnet config _, locked_iff_of_burn (locktime_of_spend hspend) _⟩
  | addDelegatorTx vdr rewardsOwner =>
    obtain ⟨⟨ins, change, stake⟩, hspend, h⟩ := bind_eq_ok.mp h
    cases h
    have hfunded := (spend_spec hspend).1
    exact ⟨hfunded, trivial, burns_of_funded rfl hfunded (spend_stake_balanced hspend),
      fun _ _ _ => eq_comm, locked_stake_iff hspend⟩
  | createChainTx subnetID genesis vmID fxIDs chainName =>
    obtain ⟨⟨ins, change, stake⟩, hspend, h⟩ := bind_eq_ok.mp h
    obtain ⟨subnetAuth, hauth, h⟩ := bind_eq_ok.mp h
    cases h
    have hfunded := (spend_spec hspend).1
    exact ⟨hfunded, hauth, burns_of_funded rfl hfunded (spend_fee_balanced hspend),
      fun config _ => hsubnet config _, locked_iff_of_burn (locktime_of_spend hspend) _⟩
  | createSubnetTx owner =>
    obtain ⟨⟨ins, change, stake⟩, hspend, h⟩ := bind_eq_ok.mp h
    cases h
    have hfunded := (spend_spec hspend).1
    exact ⟨hfunded, trivial, burns_of_funded rfl hfunded (spend_fee_balanced hspend),
      fun config _ => hsubnet config _, locked_iff_of_burn (locktime_of_spend hspend) _⟩
  | importTx sourceChainID owners =>
    obtain ⟨imported, himport, h⟩ := bind_eq_ok.mp h
    obtain ⟨-, h⟩ := then_eq_ok.mp h
    obtain ⟨⟨ins, outs, amounts⟩, hpay, h⟩ := bind_eq_ok.mp h
    cases h
    have himported : b.Imported ops sourceChainID imported :=
      foldlM_ok himport ⟨by simp, by simp, fun a => by simp [amountOf]⟩ fun _ _ _ hutxo hi hi' =>
        hi.importUTXO hutxo hi'
    obtain ⟨hfunded, hunlocked, hbal⟩ := payImport_spec hpay
    obtain ⟨consumed, hconsumed, hentries⟩ := exists_utxos hfunded
    obtain ⟨taken, htaken, hentries'⟩ := exists_utxos fun i hi => (himported.sorted_funded i hi).1
    refine ⟨hfunded, himported.sorted_funded, ⟨consumed, taken, hconsumed, ?_, fun a => ?_⟩,
      fun config _ => hbase config, locked_iff_of_burn hunlocked _⟩
    · show List.Forall₂ _ ((sortInputs imported.inputs).map _) taken
      rw [forall₂_map_left_iff]
      exact htaken
    · -- one output for each asset, with what is left of the imported amount
      have hout : amountOf a (((RangeOrder.entries r.assets amounts).map fun p =>
            ({ assetID := p.1, out := { locktime := none, out := { amt := p.2, owners } } } :
              TransferableOutput)).map entry) = amount amounts a := by
        rw [map_map, ← amountOf_entries r.assets amounts a]
        congr 1
        exact map_id _
      show _ = amountOf a (map _ (sortOutputs _ _ ++ ([] ++ []))) + _
      rw [map_append, amountOf_append, hentries, hentries', append_nil, append_nil,
        amountOf_sortOutputs, amountOf_sortInputs, ← himported.amounts a, map_append,
        amountOf_append, hout, hbal a, Call.fee]
  | exportTx chainID outputs =>
    obtain ⟨toBurn, hburn, h⟩ := bind_eq_ok.mp h
    obtain ⟨⟨ins, change, stake⟩, hspend, h⟩ := bind_eq_ok.mp h
    cases h
    obtain ⟨hfunded, hbal⟩ := spend_spec hspend
    refine ⟨hfunded, trivial, burns_of_funded rfl hfunded fun a => ?_,
      fun config _ => hbase config, locked_iff_of_burn (locktime_of_spend hspend) _⟩
    -- the exported outputs are made on the other chain, and are burned here
    show amountOf a (ins.map entryOf) = amountOf a (map _ (change ++ ([] ++ sortOutputs _ _))) + _
    rw [nil_append, map_append, amountOf_append, amountOf_sortOutputs, (hbal a).2,
      burnFor_spec hburn a, amount_empty, Call.fee]
    omega

/-- A transaction that the builder returns burns its fee of AVAX and nothing of any other asset
    exactly when the method and the executor mean the same fee. -/
theorem Builder.build_burns_fee {b : Builder} {r : Ranges} {ops : Options} {config : Config}
    {t : Time} (hshared : b.backend.ctx.SharedWith config) {call : Call} {utx : UnsignedTx}
    (h : b.build r ops call = .ok utx) :
    b.Burns utx (utx.fee config t) ↔ call.FeesAgree config t := by
  have hmade := build_made h
  rw [← hmade.fee_iff config t hshared]
  constructor
  · exact hmade.burns.unique
  · intro hfee
    rw [← hfee]
    exact hmade.burns

/-! ## A wallet with one UTXO -/

namespace SmallWallet

/-- Subnets and chains cost 1000, other transactions 1. -/
def config : Config :=
  { addStakerTxFee := 0
    txFee := 1
    createAssetTxFee := 10
    createSubnetTxFee := 1000
    createBlockchainTxFee := 1000
    minValidatorStake := 5
    maxValidatorStake := 500
    minDelegatorStake := 5
    minDelegationFee := 0
    uptimePercentage := 4 / 5
    minStakeDuration := Time.second
    maxStakeDuration := 1000 * Time.second
    rewardConfig :=
      { maxConsumptionRate := 120000
        minConsumptionRate := 100000
        mintingPeriod := 1000 * Time.second
        supplyCap := 100000 }
    apricotPhase3Time := .unix 0
    apricotPhase5Time := .unix 0
    blueberryTime := .unix 0 }

def owner : OutputOwners := { locktime := 0, threshold := 1, addrs := [⟨7⟩] }

variable (locktime : Option Nat) (call : Call)

/-- 5000 of AVAX, locked until `locktime` if it is given. -/
def utxo : TransferableOutput :=
  { assetID := ⟨42⟩, out := { locktime, out := { amt := 5000, owners := owner } } }

/-- The subnet of the owner. -/
def subnetTx : CreateSubnetTx :=
  { base := { networkID := 1, blockchainID := ID.empty, outs := [], ins := [], memo := [] }, owner }

def backend : Backend :=
  { ctx :=
      { networkID := 1
        avaxAssetID := ⟨42⟩
        baseTxFee := 1
        createSubnetTxFee := 1000
        createBlockchainTxFee := 1000 }
    utxos := fun chainID =>
      if chainID = platformChainID then Finmap.singleton { txID := ⟨3⟩, outputIndex := 0 } (utxo locktime)
      else ∅
    tx := fun txID => if txID = ⟨5⟩ then some (.createSubnet subnetTx) else none
    marshalledLess := fun _ _ => false }

def builder : Builder := { addrs := {⟨7⟩}, backend := backend locktime }

def options : Options :=
  { customAddresses := none, minIssuanceTime := 50, changeOwner := none, memo := [] }

def validator : Validator := { nodeID := ⟨5⟩, start := 1000, stop := 1100, wght := 100 }

theorem shared : (builder locktime).backend.ctx.SharedWith config := ⟨rfl, rfl, rfl⟩

/-- Whether a call returns a transaction. -/
def builds : Bool := ((builder locktime).build .ascending options call).toOption.isSome

theorem exists_of_builds (h : builds locktime call = true) :
    ∃ utx, (builder locktime).build .ascending options call = .ok utx := by
  rw [builds] at h
  cases hbuild : (builder locktime).build .ascending options call with
  | error e =>
    rw [hbuild] at h
    cases h
  | ok utx => exact ⟨utx, rfl⟩

end SmallWallet

open SmallWallet

theorem Builder.build_burns_fee_createSubnet :
    ∃ utx, (builder none).build .ascending options
        (.createSubnetTx owner) = .ok utx ∧
      (builder none).Burns utx (utx.fee config (.unix 100)) := by
  obtain ⟨utx, h⟩ := exists_of_builds none (.createSubnetTx owner)
    (by decide +kernel)
  refine ⟨utx, h, (build_burns_fee (shared none) h).mpr ?_⟩
  show config.createSubnetTxFee = config.getCreateSubnetTxFee (.unix 100)
  decide

/-- A subnet validator is added for 1000, and the executor asks for 1. -/
theorem exists_burns_other_fee :
    ∃ utx, (builder none).build .ascending options
        (.addSubnetValidatorTx validator ⟨5⟩) = .ok utx ∧
      (builder none).backend.ctx.SharedWith config ∧
      utx.fee config (.unix 100) = 1 ∧ (builder none).Burns utx 1000 ∧
      ¬(builder none).Burns utx (utx.fee config (.unix 100)) := by
  obtain ⟨utx, h⟩ := exists_of_builds none
    (.addSubnetValidatorTx validator ⟨5⟩) (by decide +kernel)
  have hburns : (builder none).Burns utx 1000 := (Builder.build_made h).burns
  have hfee : utx.fee config (.unix 100) = 1 := by
    obtain ⟨out, -, h⟩ := bind_eq_ok.mp h
    obtain ⟨subnetAuth, -, h⟩ := bind_eq_ok.mp h
    cases h
    rfl
  refine ⟨utx, h, shared none, hfee, hburns, ?_⟩
  intro hother
  rw [hfee] at hother
  have heq : (1000 : Nat) = 1 := hburns.unique hother
  omega

end SavannahNode.Wallet
