import SavannahNode.Spec.LedgerRun

/-!
# The ledger of the genesis

`syncGenesis` makes the validators of the genesis current stakers and records their
transactions. If the genesis is well formed, this is a valid ledger.

## Key results

* `Genesis.WellFormed` — what is assumed about the genesis.
* `Genesis.WellFormed.valid` — the ledger of the genesis is valid.
-/

namespace SavannahNode.PlatformVM

open Ledger List

/-- The genesis of a network. UTXOs have the empty transaction ID and different indices. The
    transactions take no inputs; validators are on different nodes, have a stake, and are
    active at the time of the genesis. -/
structure Genesis.WellFormed (ctx : Context) (T : Set Tx) (g : Genesis) : Prop where
  utxo_source : ∀ u ∈ g.utxos, u.utxoID.txID = ID.empty
  utxo_nodup : (g.utxos.map UTXO.utxoID).Nodup
  txs : ∀ stx ∈ g.validators ++ g.chains, stx ∈ T ∧ stx.id ≠ ID.empty ∧ stx.unsigned.ins = []
  nodes : g.validators.Pairwise fun stx stx' => ∀ tx tx', stx.unsigned = .addValidator tx →
    stx'.unsigned = .addValidator tx' → tx.validator.nodeID ≠ tx'.validator.nodeID
  stakes : ∀ stx ∈ g.validators, ∀ tx, stx.unsigned = .addValidator tx →
    Stakes ctx tx.validator tx.stake tx.rewardsOwner
  active : ∀ stx ∈ g.validators, ∀ tx, stx.unsigned = .addValidator tx →
    tx.validator.startTime ≤ Time.unix g.timestamp ∧ Time.unix g.timestamp < tx.validator.endTime

/-- The branch that starts with the genesis. -/
def Branch.genesis (s : State) (inbound : ID → UTXOID → Option UTXO) : Branch :=
  { chain := s.read, memory := { inbound, puts := [], taken := [] }, rewarded := [] }

/-! ## The loops of `syncGenesis` -/

/-- A current staker from a transaction of the genesis. -/
def GenesisStaker (stx : Tx) (x : Staker) : Prop :=
  ∃ tx, stx.unsigned = .addValidator tx ∧ x.potentialReward < 2 ^ 64 ∧
    x = { newPrimaryNetworkStaker stx.id tx.validator tx.validator.endTime
      primaryNetworkValidatorCurrentPriority with potentialReward := x.potentialReward }

/-- The state after some validators and chains of the genesis. -/
structure GenesisLoaded (g : Genesis) (utxo : UTXOID → Option UTXO) (validators txs : List Tx)
    (s : State) : Prop where
  timestamp : s.timestamp = Time.unix g.timestamp
  pending : s.pendingStakers = .empty
  utxos : s.utxos.lookup = utxo
  coherent : s.currentStakers.read.Coherent
  delegators : ∀ k, s.currentStakers.read.delegators k = []
  stakers : ∀ x, s.currentStakers.read.IsValidator x → ∃ stx ∈ validators, GenesisStaker stx x
  supply : s.currentSupply =
    g.initialSupply + (s.currentStakers.read.stakers.map (·.potentialReward)).sum
  recorded : ∀ id t, s.txs.lookup id = some t → t.1.id = id ∧ t.1 ∈ txs ∧ t.1.unsigned.imported = []
  kept : ∀ stx ∈ txs, ∃ t, s.txs.lookup stx.id = some t

namespace GenesisLoaded

variable {g : Genesis} {utxo : UTXOID → Option UTXO} {done txs : List Tx} {s s' : State} {stx : Tx}

section

variable (h : GenesisLoaded g utxo done txs s)

include h

/-- A new transaction is recorded. -/
theorem addTx_lookup (himported : stx.unsigned.imported = []) (id : ID) (t : Tx × TxStatus)
    (ht : (s.txs.insert stx.id (stx, .committed)).lookup id = some t) :
    t.1.id = id ∧ t.1 ∈ txs ++ [stx] ∧ t.1.unsigned.imported = [] := by
  rw [Finmap.lookup_insert_ite] at ht
  split at ht
  · cases ht
    exact ⟨Eq.symm ‹_›, mem_append_right _ (mem_singleton_self _), himported⟩
  obtain ⟨hid, hmem, himp⟩ := h.recorded id t ht
  exact ⟨hid, mem_append_left _ hmem, himp⟩

theorem addTx_kept :
    ∀ stx' ∈ txs ++ [stx], ∃ t, (s.txs.insert stx.id (stx, .committed)).lookup stx'.id = some t := by
  intro stx' hmem
  rw [Finmap.lookup_insert_ite]
  split
  · exact ⟨_, rfl⟩
  rename_i hne
  refine h.kept stx' ((mem_append.mp hmem).resolve_right fun heq => hne ?_)
  rw [mem_singleton.mp heq]

/-- One validator, of a node without a validator. -/
theorem addValidator {rewards : RewardConfig}
    (hnode : ∀ x, s.currentStakers.read.IsValidator x → ∀ tx, stx.unsigned = .addValidator tx →
      x.nodeID ≠ tx.validator.nodeID ∧ x.txID ≠ stx.id)
    (hs' : s.addGenesisValidator rewards stx = .ok s') :
    GenesisLoaded g utxo (done ++ [stx]) (txs ++ [stx]) s' := by
  rw [State.addGenesisValidator] at hs'
  split at hs'
  · rename_i tx htx
    have hreward := rewards.calculate_lt tx.validator.duration tx.validator.wght s.currentSupply
    obtain ⟨supply, hsupply, hs'⟩ := Except.bind_eq_ok.mp hs'
    have hsum := add64_eq_some (Except.ofOption_eq_ok.mp hsupply)
    cases hs'
    generalize rewards.calculate tx.validator.duration tx.validator.wght s.currentSupply = r
      at hreward hsum
    generalize hx : { newPrimaryNetworkStaker stx.id tx.validator tx.validator.endTime
      primaryNetworkValidatorCurrentPriority with potentialReward := r } = x
    have hnone : s.currentStakers.read.validator x.slot = none := by
      refine h.coherent.validator_eq_none.mpr fun y hy hslot => (hnode y hy tx htx).1 ?_
      rw [← hx] at hslot
      exact congrArg Prod.snd hslot
    have hlacks : s.currentStakers.read.Lacks x.txID := by
      refine h.coherent.lacks_iff.mpr fun y hy heq => ?_
      rcases hy with hy | hy
      · refine (hnode y hy tx htx).2 (heq.trans ?_)
        rw [← hx]
        rfl
      rw [Stakers.IsDelegator, h.delegators] at hy
      exact absurd hy not_mem_nil
    have hread := BaseStakers.read_putValidator (v := s.currentStakers) (s := x)
    have hcoherent : (s.currentStakers.putValidator x).read.Coherent := by
      rw [hread]
      exact h.coherent.putValidator hnone hlacks
    have hperm : (s.currentStakers.putValidator x).read.stakers.Perm
        (x :: s.currentStakers.read.stakers) := by
      refine hcoherent.perm_stakers (nodup_cons.mpr ⟨fun hmem => hlacks x hmem rfl,
        h.coherent.nodup⟩) fun y => ?_
      rw [hread, h.coherent.mem_putValidator hlacks, mem_cons]
    refine ⟨h.timestamp, h.pending, h.utxos, hcoherent, ?_, ?_, ?_,
      h.addTx_lookup (by rw [htx]; rfl), h.addTx_kept⟩
    · intro k
      show (s.currentStakers.putValidator x).read.delegators k = []
      rw [hread]
      exact h.delegators k
    · intro y hy
      change (s.currentStakers.putValidator x).read.IsValidator y at hy
      rw [hread, Stakers.Coherent.isValidator_putValidator hnone] at hy
      rcases hy with rfl | hy
      · refine ⟨stx, mem_append_right _ (mem_singleton_self _), tx, htx, ?_, ?_⟩
        · rw [← hx]
          exact hreward
        · rw [← hx]
      obtain ⟨stx', hmem, hstaker⟩ := h.stakers y hy
      exact ⟨stx', mem_append_left _ hmem, hstaker⟩
    · show supply = g.initialSupply +
        ((s.currentStakers.putValidator x).read.stakers.map (·.potentialReward)).sum
      have hxr : x.potentialReward = r := by rw [← hx]
      rw [(hperm.map _).sum_eq, map_cons, sum_cons, hsum, h.supply, hxr]
      omega
  · cases hs'

/-- One chain. -/
theorem addChain {ctx : Context}
    (hs' : s.addGenesisChain ctx stx = .ok s') : GenesisLoaded g utxo done (txs ++ [stx]) s' := by
  rw [State.addGenesisChain] at hs'
  split at hs'
  · rename_i tx htx
    obtain ⟨-, hs'⟩ := Except.then_eq_ok.mp hs'
    cases hs'
    exact { h with recorded := h.addTx_lookup (by rw [htx]; rfl), kept := h.addTx_kept }
  · cases hs'

end

end GenesisLoaded

/-- The loop over the UTXOs of the genesis. -/
theorem addGenesisUTXOs (utxos : List UTXO) (s : State) :
    ∃ m, utxos.foldl (fun s utxo => s.modifyUTXO utxo.utxoID (some utxo)) s = { s with utxos := m } ∧
      ∀ c : Chain, c.utxo = s.utxos.lookup → m.lookup = (c.addUTXOs utxos).utxo := by
  induction utxos generalizing s with
  | nil => exact ⟨s.utxos, rfl, fun c hc => hc.symm⟩
  | cons u utxos ih =>
    obtain ⟨m, hm, hlookup⟩ := ih (s.modifyUTXO u.utxoID (some u))
    refine ⟨m, hm, fun c hc => ?_⟩
    rw [Chain.addUTXOs_cons]
    refine hlookup _ (funext fun id => ?_)
    show Function.update c.utxo u.utxoID (some u) id = (s.utxos.insert u.utxoID u).lookup id
    rw [Finmap.lookup_insert_ite, hc]
    by_cases hid : id = u.utxoID
    · subst hid
      rw [if_pos rfl, Function.update_self]
    · rw [if_neg hid, Function.update_of_ne hid]

theorem coherent_emptyStakers : Stakers.Coherent BaseStakers.empty.read := by
  constructor
  · exact .nil
  · exact fun k => .nil
  · exact fun h => by cases h
  · exact fun h => absurd h not_mem_nil
  · exact fun s => iff_of_false not_mem_nil fun h =>
      h.elim (fun h => by cases h) fun h => absurd h not_mem_nil
  · exact fun h => by cases h
  · exact fun h => absurd h not_mem_nil

namespace Genesis.WellFormed

variable {b : Backend} {T : Set Tx} {g : Genesis} {validators : Manager} {genesisBlk : Block}
  {s : State}

section

variable (hT : Set.InjOn Tx.id T) (hg : g.WellFormed b.ctx T)
  (h : (State.empty validators).syncGenesis b genesisBlk g = .ok s)

include hT hg h

/-- All of `syncGenesis`. -/
theorem loaded :
    GenesisLoaded g (State.empty validators |>.read.addUTXOs g.utxos).utxo g.validators (g.validators ++ g.chains) s := by
  obtain ⟨s1, hs1, h⟩ := Except.bind_eq_ok.mp h
  have hvalidators : GenesisLoaded g (State.empty validators |>.read.addUTXOs g.utxos).utxo g.validators g.validators s1 := by
    refine foldlM_ok_history (P := fun done s => GenesisLoaded g (State.empty validators |>.read.addUTXOs g.utxos).utxo done done s) hs1 ?_ ?_
    · obtain ⟨m, hm, hlookup⟩ := addGenesisUTXOs g.utxos
        ({ State.empty validators with
            lastAccepted := genesisBlk.id
            timestamp := Time.unix g.timestamp
            currentSupply := g.initialSupply }.addStatelessBlock genesisBlk .accepted)
      rw [hm]
      refine ⟨rfl, rfl, hlookup _ rfl, coherent_emptyStakers, fun k => rfl, fun x hx => ?_, rfl, fun id t ht => ?_,
        fun stx hmem => absurd hmem not_mem_nil⟩
      · cases hx
      · cases ht
    · intro done stx rest s s' hsplit hloaded hs'
      refine hloaded.addValidator (fun x hx tx htx => ?_) hs'
      obtain ⟨stx', hmem, tx', htx', -, hxeq⟩ := hloaded.stakers x hx
      have hpair := hg.nodes
      rw [hsplit, pairwise_append] at hpair
      have hne := hpair.2.2 stx' hmem stx mem_cons_self tx' tx htx' htx
      have hnode : x.nodeID = tx'.validator.nodeID := by rw [hxeq]; rfl
      have hid : x.txID = stx'.id := by rw [hxeq]; rfl
      refine ⟨hnode ▸ hne, fun heq => hne ?_⟩
      have hin : ∀ t ∈ g.validators, t ∈ T := fun t ht => (hg.txs t (mem_append_left _ ht)).1
      obtain rfl : stx' = stx := hT (hin _ (by rw [hsplit]; exact mem_append_left _ hmem))
        (hin _ (by rw [hsplit]; exact mem_append_right _ mem_cons_self)) (hid.symm.trans heq)
      rw [htx] at htx'
      cases htx'
      rfl
  refine foldlM_ok_history
    (P := fun done s => GenesisLoaded g (State.empty validators |>.read.addUTXOs g.utxos).utxo g.validators (g.validators ++ done) s) h ?_ ?_
  · rw [append_nil]
    exact hvalidators
  · intro done stx rest s s' hsplit hloaded hs'
    rw [← append_assoc]
    exact hloaded.addChain hs'

/-- A current staker of the genesis, with its transaction. -/
theorem staker {x : Staker} (hx : s.read.current.IsValidator x) :
    ∃ stx ∈ g.validators, ∃ tx t, stx.unsigned = .addValidator tx ∧ s.read.tx x.txID = some t ∧
      t.1 = stx ∧ x.txID = stx.id ∧ x.potentialReward < 2 ^ 64 ∧
      x = { newPrimaryNetworkStaker stx.id tx.validator tx.validator.endTime
        primaryNetworkValidatorCurrentPriority with potentialReward := x.potentialReward } := by
  have hl := hg.loaded hT h
  obtain ⟨stx, hmem, tx, htx, hreward, hxeq⟩ := hl.stakers x hx
  have hid : x.txID = stx.id := by
    rw [hxeq]
    rfl
  have hall := mem_append_left g.chains hmem
  obtain ⟨t, ht⟩ := hl.kept stx hall
  obtain ⟨htid, htmem, -⟩ := hl.recorded _ t ht
  exact ⟨stx, hmem, tx, t, htx, hid ▸ ht, hT (hg.txs _ htmem).1 (hg.txs _ hall).1 htid, hid, hreward,
    hxeq⟩

/-- The staker set of the genesis. -/
theorem periods : s.read.Periods := by
  have hl := hg.loaded hT h
  have hpending : s.read.pending = BaseStakers.empty.read := congrArg BaseStakers.read hl.pending
  have hnoDelegator : ∀ x, ¬s.read.current.IsDelegator x := by
    intro x hx
    rw [Stakers.IsDelegator, show s.read.current.delegators x.slot = [] from hl.delegators _] at hx
    exact absurd hx not_mem_nil
  have hnoPending : ∀ x, ¬s.read.pending.IsValidator x := by
    intro x hx
    rw [hpending] at hx
    cases hx
  have hnoPendingDelegator : ∀ x, ¬s.read.pending.IsDelegator x := by
    intro x hx
    rw [hpending] at hx
    exact absurd hx not_mem_nil
  have hcurrent : s.read.current.Coherent := hl.coherent
  have hpendingCoherent : s.read.pending.Coherent := hpending ▸ coherent_emptyStakers
  have hprimary : ∀ x, s.read.current.IsValidator x →
      x.subnetID = primaryNetworkID ∧ x.priority = primaryNetworkValidatorCurrentPriority ∧
        x.nextTime = x.endTime ∧ x.startTime ≤ s.read.timestamp ∧ s.read.timestamp ≤ x.endTime := by
    intro x hx
    obtain ⟨stx, hmem, tx, t, htx, -, -, -, -, hxeq⟩ := hg.staker hT h hx
    obtain ⟨hstart, hend⟩ := hg.active stx hmem tx htx
    rw [show s.read.timestamp = _ from hl.timestamp, hxeq]
    exact ⟨rfl, rfl, rfl, hstart, le_of_lt hend⟩
  refine ⟨hcurrent, hpendingCoherent, fun x hx => ?_, fun x hx => ?_, fun x hx => ?_, fun x hx => ?_,
    fun x hx => ?_, fun x hx => ?_, fun x y hx hy => absurd hy (hnoPending y), fun x hx y hy => ?_,
    fun x hx => ?_, fun x hx => ?_⟩
  · rcases hcurrent.mem_stakers.mp hx with hx | hx
    · exact (hprimary x hx).2.2
    · exact absurd hx (hnoDelegator x)
  · rcases hpendingCoherent.mem_stakers.mp hx with hx | hx
    · exact absurd hx (hnoPending x)
    · exact absurd hx (hnoPendingDelegator x)
  · exact .inl ⟨(hprimary x hx).1, (hprimary x hx).2.1⟩
  · exact absurd hx (hnoDelegator x)
  · exact absurd hx (hnoPending x)
  · exact absurd hx (hnoPendingDelegator x)
  · rcases hpendingCoherent.mem_stakers.mp hy with hy | hy
    · exact absurd hy (hnoPending y)
    · exact absurd hy (hnoPendingDelegator y)
  · rcases hx with hx | ⟨hx, hsubnet⟩
    · exact absurd hx (hnoDelegator x)
    · exact absurd (hprimary x hx).1 hsubnet
  · rcases hx with hx | ⟨hx, -⟩
    · exact absurd hx (hnoPendingDelegator x)
    · exact absurd hx (hnoPending x)

/-- The ledger of the genesis. -/
theorem valid (inbound : ID → UTXOID → Option UTXO) :
    ((Branch.genesis s inbound).ledger (g.utxos.map UTXO.utxoID)).Valid b.ctx T := by
  have hl := hg.loaded hT h
  have hper := hg.periods hT h
  have hpending : s.read.pending.stakers = [] :=
    congrArg (fun v : BaseStakers => v.read.stakers) hl.pending
  have htx : ∀ id t, s.read.tx id = some t →
      t.1.id = id ∧ t.1 ∈ T ∧ t.1.unsigned.ins = [] ∧ t.1.unsigned.imported = [] := by
    intro id t ht
    obtain ⟨hid, hmem, himported⟩ := hl.recorded id t ht
    exact ⟨hid, (hg.txs _ hmem).1, (hg.txs _ hmem).2.2, himported⟩
  have hcurrent : ∀ x, s.read.IsValidator x → s.read.current.IsValidator x := by
    intro x hx
    refine hx.resolve_right fun hp => ?_
    have hmem := hper.pending.mem_stakers.mpr (.inl hp)
    rw [hpending] at hmem
    exact absurd hmem not_mem_nil
  have hnoDelegator : ∀ x, ¬s.read.IsDelegator x := by
    rintro x (hx | hx)
    · rw [Stakers.IsDelegator, show s.read.current.delegators x.slot = [] from hl.delegators _] at hx
      exact absurd hx not_mem_nil
    · have hmem := hper.pending.mem_stakers.mpr (.inr hx)
      rw [hpending] at hmem
      exact absurd hmem not_mem_nil
  refine ⟨hper, ⟨fun id t ht => ⟨(htx id t ht).1, (htx id t ht).2.1⟩, fun id u hu => ?_,
    fun id t ht i hi => ?_, fun id t ht k hk => ?_, fun k hk => absurd hk not_mem_nil,
    fun id hid => .inl ?_, hg.utxo_nodup⟩,
    ⟨fun x hx => ?_, fun x hx => absurd hx (hnoDelegator x), fun x hx _ t ht id hid heq => ?_,
      fun x hx => ?_, fun x hx => ?_⟩⟩
  · replace hu := (congrFun hl.utxos id).symm.trans hu
    rcases Chain.utxo_addUTXOs_cases hg.utxo_nodup hu with ⟨hmem, rfl⟩ | ⟨-, hu⟩
    · exact ⟨rfl, mem_map_of_mem hmem⟩
    · cases hu
  · rw [(htx id t ht).2.2.1] at hi
    exact absurd hi not_mem_nil
  · rw [(htx id t ht).2.2.2] at hk
    exact absurd hk not_mem_nil
  · obtain ⟨u, hu, rfl⟩ := mem_map.mp hid
    exact hg.utxo_source u hu
  · obtain ⟨stx, hmem, tx, t, hstx, ht, rfl, -, -, hxeq⟩ := hg.staker hT h (hcurrent x hx)
    refine ⟨t, ht, hstx ▸ .primary tx ?_ (hg.stakes _ hmem tx hstx)⟩
    rw [hxeq]
    exact ⟨rfl, rfl, rfl, rfl, rfl⟩
  · -- the UTXOs of the genesis are from no transaction
    have hx := hcurrent x (hx.resolve_right (hnoDelegator x))
    obtain ⟨stx, hmem, -, -, -, -, -, hid', -, -⟩ := hg.staker hT h hx
    obtain ⟨u, hu, rfl⟩ := mem_map.mp hid
    rw [hg.utxo_source u hu, hid'] at heq
    exact absurd heq.symm (hg.txs stx (mem_append_left _ hmem)).2.1
  · change x ∈ s.read.pending.stakers at hx
    rw [hpending] at hx
    exact absurd hx not_mem_nil
  · rcases hper.current.mem_stakers.mp hx with hx | hx
    · obtain ⟨stx, -, tx, t, -, -, -, -, hreward, hxeq⟩ := hg.staker hT h hx
      refine ⟨hreward, fun hne => absurd ?_ hne⟩
      rw [hxeq]
      rfl
    · exact absurd (.inl hx) (hnoDelegator x)

end

end Genesis.WellFormed

end SavannahNode.PlatformVM
