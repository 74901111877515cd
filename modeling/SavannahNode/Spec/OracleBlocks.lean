import SavannahNode.ForStd.Run
import SavannahNode.Spec.StakerInvariant
import SavannahNode.Spec.TxErrors

/-!
# Oracle blocks

A proposal block has two options and no other children, a `CommitBlock` and an `AbortBlock`;
all other blocks are options of no block. A proposal block is kept with the diffs of its
options and without one of its own, any other block with its own diff only.

`Verify` of an option takes the diff that belongs to it from the parent, if the parent is in
memory, and reads its timestamp. It does not ask whether the parent is a proposal block: an
option on top of another block dereferences `nil`.

## Key results

* `BlockManager.Oracle`, `BlockManager.Oracle.execute` — the invariant, and that operations
  keep it.
* `verify_of_run` — verification after every run.
* `exists_nil_option` — the option of an option.
-/

namespace SavannahNode.PlatformVM

open Except Finmap List Option State

/-- A `ProposalBlock`. -/
def BlockBody.isProposal : BlockBody → Bool
  | .proposal _ => true
  | _ => false

/-- A `CommitBlock` or an `AbortBlock`. -/
def BlockBody.isOption : BlockBody → Bool
  | .commit => true
  | .abort => true
  | _ => false

/-! ## Runs of the block manager -/

namespace BlockManager

/-- The manager of a node that starts with a state. -/
def new (s : State) (inbound : ID → UTXOID → Option UTXO) : BlockManager :=
  { lastAccepted := s.lastAccepted
    blkIDToState := ∅
    state := s
    memory := { inbound, puts := [], taken := [] } }

/-- What consensus and other chains do to the manager. -/
inductive Op where
  | verify (env : Env) (blk : Block)
  | accept (orders : Orders) (blk : Block)
  | reject (orders : Orders) (blk : Block)
  /-- Another chain puts a UTXO into shared memory. -/
  | deliver (chainID : ID) (utxo : UTXO)

/-- The block of an operation. -/
def Op.block : Op → Option Block
  | .verify _ blk => some blk
  | .accept _ blk => some blk
  | .reject _ blk => some blk
  | .deliver _ _ => none

/-- One operation. A block that does not verify changes nothing; an error of `Accept` or
    `Reject` stops the node, and so does a panic. -/
def execute (b : Backend) (whitelistedSubnets : Finset ID) (m : BlockManager) :
    Op → Except Err BlockManager
  | .verify env blk =>
    match m.verify b env blk with
    | .ok m' => .ok m'
    | .error .nilDiff => .error .nilDiff
    | .error _ => .ok m
  | .accept orders blk => m.accept whitelistedSubnets orders blk
  | .reject orders blk => m.reject whitelistedSubnets orders blk
  | .deliver chainID utxo => .ok { m with memory := m.memory.deliver chainID utxo }

/-- A run. -/
def run (b : Backend) (whitelistedSubnets : Finset ID) (m : BlockManager) (ops : List Op) :
    Except Err BlockManager :=
  ops.foldlM (execute b whitelistedSubnets) m

end BlockManager

/-! ## Blocks that are written -/

/-- What a state says about blocks. -/
def State.header (s : State) : ID × Nat × IDMap (Block × Status) :=
  (s.lastAccepted, s.currentHeight, s.blocks)

namespace State

theorem header_addSubnet (s : State) (tx : Tx) : (s.addSubnet tx).header = s.header := rfl

theorem header_addChain (s : State) (subnetID : ID) (tx : Tx) :
    (s.addChain subnetID tx).header = s.header := rfl

theorem header_addTx (s : State) (tx : Tx) (status : TxStatus) :
    (s.addTx tx status).header = s.header := rfl

theorem header_addRewardUTXO (s : State) (txID : ID) (utxo : UTXO) :
    (s.addRewardUTXO txID utxo).header = s.header := rfl

theorem header_modifyUTXO (s : State) (utxoID : UTXOID) (utxo : Option UTXO) :
    (s.modifyUTXO utxoID utxo).header = s.header := rfl

end State

theorem Diff.header_apply (orders : Orders) (d : Diff) (s : State) :
    (d.apply orders s).header = s.header := by
  rw [Diff.apply]
  rw [foldl_frame (g := header) fun s (p : UTXOID × Option UTXO) => s.header_modifyUTXO p.1 p.2,
    foldl_frame (g := header) fun s (p : ID × List UTXO) =>
      foldl_frame (g := header) (fun s utxo => s.header_addRewardUTXO p.1 utxo) p.2 s,
    foldl_frame (g := header) fun s (p : ID × Tx × TxStatus) => s.header_addTx p.2.1 p.2.2,
    foldl_frame (g := header) fun s (p : ID × List Tx) =>
      foldl_frame (g := header) (fun s tx => s.header_addChain p.1 tx) p.2 s,
    foldl_frame (g := header) header_addSubnet]
  rfl

theorem State.header_write {whitelistedSubnets : Finset ID} {orders : Orders} {s s' : State}
    (h : s.write whitelistedSubnets orders = some s') : s'.header = s.header := by
  obtain ⟨s1, hs1, h⟩ := bind_eq_some_iff.mp h
  cases h
  obtain ⟨s2, hs2, hs1⟩ := bind_eq_some_iff.mp hs1
  cases hs1
  refine foldlM_keeps (I := fun s' => s'.header = s.header) (fun s3 p s' h3 hs' => h3 ▸ ?_) rfl hs2
  obtain ⟨w, -, rfl⟩ := map_eq_some_iff.mp hs'
  rw [updateManager, putWeightDiff]
  split <;> split <;> rfl

/-! ## The invariant -/

/-- The diffs that a block of its type has. -/
structure BlockState.Typed (st : BlockState) : Prop where
  onAccept : st.onAcceptState.isSome = !st.statelessBlock.body.isProposal
  onCommit : st.onCommitState.isSome = st.statelessBlock.body.isProposal
  onAbort : st.onAbortState.isSome = st.statelessBlock.body.isProposal

namespace BlockManager

variable {B : Set Block} {m m' : BlockManager} {blk : Block} {id : ID} {p : Block}

/-- The parent is known, and is a proposal block exactly if the block is an option. -/
def Fits (m : BlockManager) (blk : Block) : Prop :=
  ∃ p, m.getBlock blk.parent = some p ∧ blk.body.isOption = p.body.isProposal

/-- Blocks are kept and written under their IDs. -/
structure Stores (B : Set Block) (m : BlockManager) : Prop where
  stored : ∀ id st, m.blkIDToState.lookup id = some st →
    st.statelessBlock.id = id ∧ st.statelessBlock ∈ B
  written : ∀ id e, m.state.blocks.lookup id = some e → e.1.id = id ∧ e.1 ∈ B

/-- The invariant of the manager. -/
structure Oracle (B : Set Block) (m : BlockManager) : Prop where
  stores : m.Stores B
  typed : ∀ id st, m.blkIDToState.lookup id = some st → st.Typed
  fits : ∀ id st, m.blkIDToState.lookup id = some st → m.Fits st.statelessBlock
  lastAccepted : ∃ e, m.state.blocks.lookup m.state.lastAccepted = some e ∧
    e.1.body.isProposal = false

theorem getBlock_of_state {st : BlockState} (h : m.blkIDToState.lookup id = some st) :
    m.getBlock id = some st.statelessBlock := by
  rw [getBlock, h]

theorem getBlock_of_written {e : Block × Status} (h : m.blkIDToState.lookup id = none)
    (he : m.state.blocks.lookup id = some e) : m.getBlock id = some e.1 := by
  rw [getBlock, h, he]
  rfl

/-- A known block is in memory or written. -/
theorem getBlock_eq_some (h : m.getBlock id = some p) :
    (∃ st, m.blkIDToState.lookup id = some st ∧ st.statelessBlock = p) ∨
      ∃ e, m.state.blocks.lookup id = some e ∧ e.1 = p := by
  rw [getBlock] at h
  split at h
  · cases h
    exact .inl ⟨_, ‹_›, rfl⟩
  · exact .inr (map_eq_some_iff.mp h)

theorem Stores.mem (h : m.Stores B) (hp : m.getBlock id = some p) : p.id = id ∧ p ∈ B := by
  rcases getBlock_eq_some hp with ⟨st, hst, rfl⟩ | ⟨e, he, rfl⟩
  · exact h.stored id st hst
  · exact h.written id e he

/-- A block that stays known is the same: its ID is its hash. -/
theorem Stores.getBlock_eq (hB : Set.InjOn Block.id B) (h : m.Stores B) (h' : m'.Stores B)
    (hp : m.getBlock id = some p) (hknown : ∃ p', m'.getBlock id = some p') :
    m'.getBlock id = some p := by
  obtain ⟨p', hp'⟩ := hknown
  obtain ⟨hid, hmem⟩ := h.mem hp
  obtain ⟨hid', hmem'⟩ := h'.mem hp'
  rw [hp', hB hmem' hmem (hid'.trans hid.symm)]

/-- A state is presented by a block that is not a proposal. -/
theorem Oracle.of_readState (h : m.Oracle B) {env : Env} {c : Chain}
    (hc : m.readState env id = some c) :
    ∃ p, m.getBlock id = some p ∧ p.body.isProposal = false := by
  obtain ⟨s, hs, -⟩ := bind_eq_some_iff.mp hc
  rw [getState] at hs
  split at hs
  · rename_i st hst
    obtain ⟨d, hd, -⟩ := map_eq_some_iff.mp hs
    refine ⟨_, getBlock_of_state hst, ?_⟩
    have htyped := (h.typed id st hst).onAccept
    rw [hd] at htyped
    simpa using htyped
  rename_i hnone
  split at hs
  · rename_i hid
    obtain ⟨e, he, hbody⟩ := h.lastAccepted
    rw [← hid] at he
    exact ⟨_, getBlock_of_written hnone he, hbody⟩
  · cases hs

/-! ## Verification -/

/-- A proposal needs the state of its parent. -/
theorem exists_parent_of_proposalTx {b : Backend} {env : Env} {parentID : ID} {parent : Option Chain}
    {stx : Tx} {p : Proposal} (h : proposalTx b env parentID parent stx = .ok p) :
    ∃ c, parent = some c := by
  cases parent with
  | some c => exact ⟨c, rfl⟩
  | none =>
    rw [proposalTx] at h
    split at h <;>
      simp [addValidatorTx, addSubnetValidatorTx, addDelegatorTx, advanceTimeTx, rewardValidatorTx,
        bind_eq_ok, ofOption_eq_ok] at h

section Verify

variable {b : Backend} {env : Env} {st : BlockState}

/-- An option is verified with the diff that belongs to it. -/
theorem Oracle.of_verifyOption (h : m.Oracle B) {option : BlockState → Option Diff}
    (hoption : ∀ st : BlockState, st.Typed → (option st).isSome = st.statelessBlock.body.isProposal)
    (hbody : blk.body.isOption = true ∧ blk.body.isProposal = false)
    (hst : m.verifyOption blk option = .ok st) : st.statelessBlock = blk ∧ st.Typed ∧ m.Fits blk := by
  simp only [verifyOption, bind_eq_ok, ofOption_eq_ok, ok.injEq] at hst
  obtain ⟨parentState, hparent, d, hd, rfl⟩ := hst
  have hsome := hoption parentState (h.typed _ _ hparent)
  rw [hd] at hsome
  refine ⟨rfl, ?_, _, getBlock_of_state hparent, hbody.1.trans hsome⟩
  constructor <;> simp [hbody.2]

/-- Other blocks are verified on a state. -/
theorem Oracle.fits_of_readState (h : m.Oracle B) {c : Chain}
    (hc : m.readState env blk.parent = some c) (hbody : blk.body.isOption = false) : m.Fits blk := by
  obtain ⟨parent, hparent, hproposal⟩ := h.of_readState hc
  exact ⟨parent, hparent, hbody.trans hproposal.symm⟩

/-- What a block is kept with once it is verified. -/
theorem Oracle.of_verifyBody (h : m.Oracle B) (hst : verifyBody b env m blk = .ok st) :
    st.statelessBlock = blk ∧ st.Typed ∧ m.Fits blk := by
  rw [verifyBody] at hst
  split at hst
  · rename_i tx hbody
    simp only [verifyProposal, bind_eq_ok, ok.injEq] at hst
    obtain ⟨p, hp, rfl⟩ := hst
    obtain ⟨c, hc⟩ := exists_parent_of_proposalTx hp
    refine ⟨rfl, ?_, h.fits_of_readState hc (by rw [hbody]; rfl)⟩
    constructor <;> simp [hbody, BlockBody.isProposal]
  · rename_i tx hbody
    simp only [verifyAtomic, bind_eq_ok, exists_unit, ofOption_eq_ok, ok.injEq] at hst
    obtain ⟨c, hc, -, e, -, -, rfl⟩ := hst
    refine ⟨rfl, ?_, h.fits_of_readState hc (by rw [hbody]; rfl)⟩
    constructor <;> simp [hbody, BlockBody.isProposal]
  · rename_i txs hbody
    simp only [verifyStandard, bind_eq_ok, exists_unit, ofOption_eq_ok, ok.injEq] at hst
    obtain ⟨c, hc, batch, -, -, rfl⟩ := hst
    refine ⟨rfl, ?_, h.fits_of_readState hc (by rw [hbody]; rfl)⟩
    constructor <;> simp [hbody, BlockBody.isProposal]
  · rename_i hbody
    exact h.of_verifyOption (fun st hst => hst.onCommit) (by rw [hbody]; exact ⟨rfl, rfl⟩) hst
  rename_i hbody
  exact h.of_verifyOption (fun st hst => hst.onAbort) (by rw [hbody]; exact ⟨rfl, rfl⟩) hst

/-- `Verify` that succeeds adds the block, unless it is there. -/
theorem verify_eq_ok (h : m.verify b env blk = .ok m') :
    (∃ st, m.blkIDToState.lookup blk.id = some st) ∧ m' = m ∨ m.blkIDToState.lookup blk.id = none ∧
        ∃ st, verifyBody b { env with memory := m.memory.inbound } m blk = .ok st ∧
          m' = { m with blkIDToState := m.blkIDToState.insert blk.id st } := by
  rw [verify] at h
  split at h
  · rename_i hsome
    cases h
    exact .inl ⟨isSome_iff_exists.mp hsome, rfl⟩
  rename_i hnone
  obtain ⟨-, h⟩ := then_eq_ok.mp h
  obtain ⟨st, hst, h⟩ := bind_eq_ok.mp h
  cases h
  exact .inr ⟨not_isSome_iff_eq_none.mp hnone, st, hst, rfl⟩

/-- A verified block is kept. -/
theorem Oracle.insert (hB : Set.InjOn Block.id B) (h : m.Oracle B) (hblk : blk ∈ B)
    (hst : st.statelessBlock = blk) (htyped : st.Typed) (hfits : m.Fits blk) :
    Oracle B { m with blkIDToState := m.blkIDToState.insert blk.id st } := by
  have hcases : ∀ id st', (m.blkIDToState.insert blk.id st).lookup id = some st' →
      id = blk.id ∧ st' = st ∨ m.blkIDToState.lookup id = some st' := by
    intro id st' h'
    rw [lookup_insert_ite] at h'
    split at h'
    · cases h'
      exact .inl ⟨‹_›, rfl⟩
    · exact .inr h'
  have hstores : Stores B { m with blkIDToState := m.blkIDToState.insert blk.id st } := by
    refine ⟨fun id st' h' => ?_, h.stores.written⟩
    rcases hcases id st' h' with ⟨rfl, rfl⟩ | h'
    · exact ⟨congrArg Block.id hst, hst ▸ hblk⟩
    · exact h.stores.stored id st' h'
  have hkept : ∀ blk', m.Fits blk' →
      Fits { m with blkIDToState := m.blkIDToState.insert blk.id st } blk' := by
    rintro blk' ⟨p, hp, heq⟩
    refine ⟨p, h.stores.getBlock_eq hB hstores hp ?_, heq⟩
    by_cases hid : blk'.parent = blk.id
    · rw [hid]
      exact ⟨_, getBlock_of_state (lookup_insert _)⟩
    refine ⟨p, ?_⟩
    rw [getBlock] at hp ⊢
    rw [lookup_insert_of_ne _ hid]
    exact hp
  refine ⟨hstores, fun id st' h' => ?_, fun id st' h' => ?_, h.lastAccepted⟩
  · rcases hcases id st' h' with ⟨-, rfl⟩ | h'
    · exact htyped
    · exact h.typed id st' h'
  rcases hcases id st' h' with ⟨-, rfl⟩ | h'
  · rw [hst]
    exact hkept blk hfits
  · exact hkept _ (h.fits id st' h')

/-! ## Panics -/

@[simp] theorem verifyUniqueInputs_returns (m : BlockManager) (blk : Block) (inputs : List UTXOID) :
    Returns (m.verifyUniqueInputs blk inputs) := by
  have hloop : ∀ fuel blk, Returns (m.verifyUniqueInputsFuel inputs fuel blk) := by
    intro fuel
    induction fuel with
    | zero => exact fun _ => failsOnly_ok ()
    | succ fuel ih =>
      intro blk
      rw [verifyUniqueInputsFuel]
      split <;> simp [ih]
  simp [verifyUniqueInputs, hloop]

@[simp] theorem batchTxs_returns (b : Backend) (env : Env) (parentID : ID) (parent : Chain)
    (txs : List Tx) : Returns (batchTxs b env parentID parent txs) := by
  refine failsOnly_foldlM (fun batch tx => ?_) _
  simp [batchTx]

/-- An option does not panic if the diff is there. -/
theorem verifyOption_returns {option : BlockState → Option Diff}
    (h : ∀ st, m.blkIDToState.lookup blk.parent = some st → (option st).isSome = true) :
    Returns (m.verifyOption blk option) := by
  refine failsOnly_bind_iff.mpr ⟨by simp, fun st hst => ?_⟩
  obtain ⟨d, hd⟩ := isSome_iff_exists.mp (h st (ofOption_eq_ok.mp hst))
  rw [hd]
  exact failsOnly_ok _

/-- An option that is not in memory, on top of a block that is in memory, that has the height
    below it, and that is not a proposal. -/
def Misplaced (m : BlockManager) (blk : Block) : Prop :=
  m.blkIDToState.lookup blk.id = none ∧ blk.body.isOption = true ∧
    ∃ st, m.blkIDToState.lookup blk.parent = some st ∧ st.statelessBlock.height + 1 = blk.height ∧
      st.statelessBlock.body.isProposal = false

theorem verifyCommonBlock_of_state {st : BlockState}
    (hst : m.blkIDToState.lookup blk.parent = some st) :
    m.verifyCommonBlock blk = failIf (st.statelessBlock.height + 1 ≠ blk.height) .wrongHeight := by
  rw [verifyCommonBlock, getBlock_of_state hst]
  rfl

/-- `Verify` panics only for a misplaced option. -/
theorem Oracle.verify_returns (h : m.Oracle B) (b : Backend) (env : Env) (hblk : ¬m.Misplaced blk) :
    Returns (m.verify b env blk) := by
  rw [verify]
  split
  · exact failsOnly_ok m
  rename_i hnew
  have hnew : m.blkIDToState.lookup blk.id = none := not_isSome_iff_eq_none.mp hnew
  refine failsOnly_bind_iff.mpr ⟨by simp [verifyCommonBlock], fun _ hcommon => ?_⟩
  have hparent : blk.body.isOption = true → ∀ st, m.blkIDToState.lookup blk.parent = some st →
      st.statelessBlock.body.isProposal = true := by
    intro hoption st hst
    rw [verifyCommonBlock_of_state hst, failIf_eq_ok, not_not] at hcommon
    by_contra hproposal
    exact hblk ⟨hnew, hoption, st, hst, hcommon, Bool.not_eq_true _ ▸ hproposal⟩
  have hbody : ∀ env, Returns (verifyBody b env m blk) := by
    intro env
    rw [verifyBody]
    split
    · simp [verifyProposal]
    · simp [verifyAtomic]
    · simp [verifyStandard]
    · rename_i hcommit
      refine verifyOption_returns fun st hst => ?_
      rw [(h.typed _ st hst).onCommit]
      exact hparent (by rw [hcommit]; rfl) st hst
    rename_i habort
    refine verifyOption_returns fun st hst => ?_
    rw [(h.typed _ st hst).onAbort]
    exact hparent (by rw [habort]; rfl) st hst
  simp [hbody]

/-- A misplaced option finds no diff in its parent, and reads it all the same. -/
theorem Oracle.verify_misplaced (h : m.Oracle B) (b : Backend) (env : Env) (hblk : m.Misplaced blk) :
    m.verify b env blk = .error .nilDiff := by
  obtain ⟨hnew, hoption, st, hst, hheight, hproposal⟩ := hblk
  have htyped := h.typed _ st hst
  have hverify : ∀ option : BlockState → Option Diff, (option st).isSome = false →
      m.verifyOption blk option = .error .nilDiff := by
    intro option hnil
    rw [Option.isSome_eq_false_iff, isNone_iff_eq_none] at hnil
    rw [verifyOption, hst]
    show (ofOption .nilDiff (option st) >>= fun d => _) = Except.error Err.nilDiff
    rw [hnil]
    rfl
  have hbody : ∀ env, verifyBody b env m blk = .error .nilDiff := by
    intro env
    rw [verifyBody]
    split <;> rename_i hb
    case h_4 => exact hverify _ (htyped.onCommit.trans hproposal)
    case h_5 => exact hverify _ (htyped.onAbort.trans hproposal)
    all_goals simp [hb, BlockBody.isOption] at hoption
  rw [verify, hnew, verifyCommonBlock_of_state hst, failIf, if_neg (not_not.mpr hheight), hbody]
  rfl

end Verify

/-! ## Acceptance and rejection -/

/-- Some blocks are written and no longer kept in memory. -/
structure Settles (m m' : BlockManager) (blks : List Block) : Prop where
  states : ∀ id st, m'.blkIDToState.lookup id = some st →
    m.blkIDToState.lookup id = some st ∧ id ∉ blks.map Block.id
  kept : ∀ id st, m.blkIDToState.lookup id = some st → id ∉ blks.map Block.id →
    m'.blkIDToState.lookup id = some st
  written : ∀ blk ∈ blks, ∃ e, m'.state.blocks.lookup blk.id = some e
  blocks : ∀ id e, m'.state.blocks.lookup id = some e →
    m.state.blocks.lookup id = some e ∨ e.1.id = id ∧ e.1 ∈ blks
  blocks_kept : ∀ id e, m.state.blocks.lookup id = some e →
    ∃ e', m'.state.blocks.lookup id = some e'

namespace Settles

variable {blks : List Block}

theorem stores (hs : Settles m m' blks) (h : m.Stores B) (hblks : ∀ blk ∈ blks, blk ∈ B) :
    m'.Stores B := by
  refine ⟨fun id st hst => h.stored id st (hs.states id st hst).1, fun id e he => ?_⟩
  rcases hs.blocks id e he with he | ⟨hid, hmem⟩
  · exact h.written id e he
  · exact ⟨hid, hblks _ hmem⟩

/-- Known blocks stay known. -/
theorem known (hs : Settles m m' blks) (hp : m.getBlock id = some p) :
    ∃ p', m'.getBlock id = some p' := by
  cases hst' : m'.blkIDToState.lookup id with
  | some st' => exact ⟨_, getBlock_of_state hst'⟩
  | none =>
    have hwritten : ∃ e, m'.state.blocks.lookup id = some e := by
      rcases getBlock_eq_some hp with ⟨st, hst, -⟩ | ⟨e, he, -⟩
      · by_cases hid : id ∈ blks.map Block.id
        · obtain ⟨blk, hblk, rfl⟩ := mem_map.mp hid
          exact hs.written blk hblk
        rw [hs.kept id st hst hid] at hst'
        cases hst'
      · exact hs.blocks_kept id e he
    obtain ⟨e, he⟩ := hwritten
    exact ⟨_, getBlock_of_written hst' he⟩

/-- The invariant, if the last accepted block is not a proposal. -/
theorem oracle (hB : Set.InjOn Block.id B) (hs : Settles m m' blks) (h : m.Oracle B)
    (hblks : ∀ blk ∈ blks, blk ∈ B)
    (hlast : m'.state.lastAccepted = m.state.lastAccepted ∨
      ∃ blk ∈ blks, blk.id = m'.state.lastAccepted ∧ blk.body.isProposal = false) :
    m'.Oracle B := by
  have hstores := hs.stores h.stores hblks
  refine ⟨hstores, fun id st hst => h.typed id st (hs.states id st hst).1, fun id st hst => ?_, ?_⟩
  · obtain ⟨p, hp, heq⟩ := h.fits id st (hs.states id st hst).1
    exact ⟨p, h.stores.getBlock_eq hB hstores hp (hs.known hp), heq⟩
  -- the block that is written under the ID of the last accepted one is that block
  have hsame : ∀ blk ∈ B, blk.body.isProposal = false →
      (∃ e, m'.state.blocks.lookup blk.id = some e) →
      ∃ e, m'.state.blocks.lookup blk.id = some e ∧ e.1.body.isProposal = false := by
    rintro blk hblk hbody ⟨e, he⟩
    obtain ⟨hid, hmem⟩ := hstores.written _ e he
    refine ⟨e, he, ?_⟩
    rw [hB hmem hblk hid]
    exact hbody
  rcases hlast with hlast | ⟨blk, hblk, hid, hbody⟩
  · obtain ⟨e, he, hbody⟩ := h.lastAccepted
    obtain ⟨hid, hmem⟩ := h.stores.written _ e he
    rw [hlast, ← hid]
    refine hsame e.1 hmem hbody ?_
    rw [hid]
    exact hs.blocks_kept _ e he
  rw [← hid]
  exact hsame blk (hblks blk hblk) hbody (hs.written blk hblk)

end Settles

theorem blocks_addStatelessBlock_kept {s : State} {blk : Block} {status : Status}
    (h : id = blk.id ∨ ∃ e, s.blocks.lookup id = some e) :
    ∃ e, (s.addStatelessBlock blk status).blocks.lookup id = some e := by
  rw [addStatelessBlock]
  rw [lookup_insert_ite]
  split
  · exact ⟨_, rfl⟩
  · exact h.resolve_left ‹_›

section Settle

variable {whitelistedSubnets : Finset ID} {orders : Orders}

theorem commit_eq_ok {d : Diff} (h : m.commit whitelistedSubnets orders d = .ok m') :
    m'.blkIDToState = m.blkIDToState ∧ m'.state.header = m.state.header := by
  obtain ⟨s, hs, h⟩ := bind_eq_ok.mp h
  cases h
  refine ⟨rfl, ?_⟩
  rw [header_write (ofOption_eq_ok.mp hs), Diff.header_apply]

/-- A block that is written and freed. -/
theorem settles_one (status : Status) (hstates : m'.blkIDToState = m.blkIDToState.erase blk.id)
    (hblocks : m'.state.blocks = (m.state.addStatelessBlock blk status).blocks) :
    Settles m m' [blk] where
  states := by
    intro id st hst
    rw [hstates, lookup_erase_ite] at hst
    split at hst
    · cases hst
    · exact ⟨hst, by simpa using ‹_›⟩
  kept := by
    intro id st hst hid
    rw [hstates, lookup_erase_ite, if_neg (by simpa using hid)]
    exact hst
  written := by
    intro blk' hblk'
    obtain rfl := mem_singleton.mp hblk'
    rw [hblocks]
    exact blocks_addStatelessBlock_kept (.inl rfl)
  blocks := by
    intro id e he
    rw [hblocks, addStatelessBlock, lookup_insert_ite] at he
    split at he
    · cases he
      exact .inr ⟨Eq.symm ‹_›, mem_singleton_self _⟩
    · exact .inl he
  blocks_kept := by
    intro id e he
    rw [hblocks]
    exact blocks_addStatelessBlock_kept (.inr ⟨e, he⟩)

theorem Settles.trans {m1 : BlockManager} {blks blks' : List Block} (h : Settles m m1 blks)
    (h' : Settles m1 m' blks') : Settles m m' (blks ++ blks') where
  states := by
    intro id st hst
    obtain ⟨hst, hid'⟩ := h'.states id st hst
    obtain ⟨hst, hid⟩ := h.states id st hst
    rw [map_append, mem_append, not_or]
    exact ⟨hst, hid, hid'⟩
  kept := by
    intro id st hst hid
    rw [map_append, mem_append, not_or] at hid
    exact h'.kept id st (h.kept id st hst hid.1) hid.2
  written := by
    intro blk hblk
    rcases mem_append.mp hblk with hblk | hblk
    · obtain ⟨e, he⟩ := h.written blk hblk
      exact h'.blocks_kept _ e he
    · exact h'.written blk hblk
  blocks := by
    intro id e he
    rcases h'.blocks id e he with he | ⟨hid, hmem⟩
    · exact (h.blocks id e he).imp_right fun h => ⟨h.1, mem_append_left _ h.2⟩
    · exact .inr ⟨hid, mem_append_right _ hmem⟩
  blocks_kept := by
    intro id e he
    obtain ⟨e', he'⟩ := h.blocks_kept id e he
    exact h'.blocks_kept id e' he'

theorem acceptDecision_eq_ok (h : m.acceptDecision whitelistedSubnets orders blk = .ok m') :
    m'.blkIDToState = m.blkIDToState.erase blk.id ∧
      m'.state.blocks = (m.state.addStatelessBlock blk .accepted).blocks ∧
      m'.state.lastAccepted = blk.id := by
  simp only [acceptDecision, bind_eq_ok, ok.injEq] at h
  obtain ⟨st, -, d, -, m1, hm1, rfl⟩ := h
  obtain ⟨hstates, hheader⟩ := commit_eq_ok hm1
  refine ⟨?_, ?_, ?_⟩
  · rw [hstates]
    rfl
  · exact congrArg (fun h => h.2.2) hheader
  · exact congrArg (fun h => h.1) hheader

/-- `Accept` keeps the invariant. -/
theorem Oracle.accept (hB : Set.InjOn Block.id B) (h : m.Oracle B) (hblk : blk ∈ B)
    (hm' : m.accept whitelistedSubnets orders blk = .ok m') : m'.Oracle B := by
  have hdecision : blk.body.isProposal = false →
      m.acceptDecision whitelistedSubnets orders blk = .ok m' → m'.Oracle B := by
    intro hbody hm'
    obtain ⟨hstates, hblocks, hlast⟩ := acceptDecision_eq_ok hm'
    refine (settles_one .accepted hstates hblocks).oracle hB h (forall_mem_singleton.mpr hblk) (.inr ?_)
    exact ⟨blk, mem_cons_self, hlast.symm, hbody⟩
  have hoption : blk.body.isProposal = false →
      m.acceptOption whitelistedSubnets orders blk = .ok m' → m'.Oracle B := by
    intro hbody hm'
    simp only [acceptOption, bind_eq_ok, ofOption_eq_ok, ok.injEq] at hm'
    obtain ⟨parentState, hparent, st, -, d, -, m1, hm1, rfl⟩ := hm'
    obtain ⟨hstates, hheader⟩ := commit_eq_ok hm1
    obtain ⟨hid, hmem⟩ := h.stores.stored _ _ hparent
    -- first the parent is settled, then the option
    have hfirst : Settles m
        { m with
          blkIDToState := m.blkIDToState.erase blk.parent
          state := m.state.addStatelessBlock parentState.statelessBlock .accepted }
        [parentState.statelessBlock] := by
      refine settles_one .accepted ?_ rfl
      rw [hid]
    have hboth : Settles m { m1 with blkIDToState := (m1.blkIDToState.erase blk.parent).erase blk.id }
        ([parentState.statelessBlock] ++ [blk]) :=
      hfirst.trans (settles_one .accepted
        (congrArg (fun states => (states.erase blk.parent).erase blk.id) hstates)
        (congrArg (fun h => h.2.2) hheader))
    refine hboth.oracle hB h (fun blk' hblk' => ?_) (.inr ?_)
    · rcases mem_append.mp hblk' with hblk' | hblk'
      · rw [mem_singleton.mp hblk']
        exact hmem
      rw [mem_singleton.mp hblk']
      exact hblk
    · exact ⟨blk, mem_append_right _ mem_cons_self, (congrArg (fun h => h.1) hheader).symm, hbody⟩
  rw [BlockManager.accept] at hm'
  split at hm'
  · cases hm'
    exact ⟨{ h.stores with }, h.typed, h.fits, h.lastAccepted⟩
  · rename_i hbody
    exact hdecision (by rw [hbody]; rfl) hm'
  · rename_i hbody
    exact hdecision (by rw [hbody]; rfl) hm'
  · rename_i hbody
    exact hoption (by rw [hbody]; rfl) hm'
  rename_i hbody
  exact hoption (by rw [hbody]; rfl) hm'

/-- `Reject` keeps the invariant. -/
theorem Oracle.reject (hB : Set.InjOn Block.id B) (h : m.Oracle B) (hblk : blk ∈ B)
    (hm' : m.reject whitelistedSubnets orders blk = .ok m') : m'.Oracle B := by
  obtain ⟨s, hs, hm'⟩ := bind_eq_ok.mp hm'
  cases hm'
  have hheader := header_write (ofOption_eq_ok.mp hs)
  have hsettles : Settles m ({ m with state := s }.free blk.id) [blk] :=
    settles_one .rejected rfl (congrArg (fun h => h.2.2) hheader)
  refine hsettles.oracle hB h (forall_mem_singleton.mpr hblk) (.inl ?_)
  exact congrArg (fun h => h.1) hheader

end Settle

/-! ## Every run -/

section Run

variable {b : Backend} {whitelistedSubnets : Finset ID}

/-- One operation keeps the invariant. -/
theorem Oracle.execute (hB : Set.InjOn Block.id B) (h : m.Oracle B) {op : Op}
    (hop : ∀ blk ∈ op.block, blk ∈ B) (hm' : m.execute b whitelistedSubnets op = .ok m') :
    m'.Oracle B := by
  cases op with
  | verify env blk =>
    rw [BlockManager.execute] at hm'
    split at hm'
    · rename_i m1 hm1
      cases hm'
      rcases verify_eq_ok hm1 with ⟨-, rfl⟩ | ⟨-, st, hst, rfl⟩
      · exact h
      obtain ⟨heq, htyped, hfits⟩ := h.of_verifyBody hst
      exact h.insert hB (hop blk rfl) heq htyped hfits
    · cases hm'
    cases hm'
    exact h
  | accept orders blk => exact h.accept hB (hop blk rfl) hm'
  | reject orders blk => exact h.reject hB (hop blk rfl) hm'
  | deliver chainID utxo =>
    cases hm'
    exact ⟨{ h.stores with }, h.typed, h.fits, h.lastAccepted⟩

/-- A manager without blocks in memory. -/
theorem oracle_new {s : State} {genesisBlk : Block} (inbound : ID → UTXOID → Option UTXO)
    (hgenesisBlk : genesisBlk ∈ B) (hbody : genesisBlk.body.isProposal = false)
    (hheader : s.header =
      (genesisBlk.id, 0, (∅ : IDMap (Block × Status)).insert genesisBlk.id (genesisBlk, .accepted))) :
    (new s inbound).Oracle B := by
  have hlast : s.lastAccepted = genesisBlk.id := congrArg (fun h => h.1) hheader
  have hblocks : s.blocks = (∅ : IDMap (Block × Status)).insert genesisBlk.id (genesisBlk, .accepted) :=
    congrArg (fun h => h.2.2) hheader
  have hnone : ∀ id st, (new s inbound).blkIDToState.lookup id ≠ some st := by
    intro id st hst
    cases hst
  refine ⟨⟨fun id st hst => absurd hst (hnone id st), fun id e he => ?_⟩,
    fun id st hst => absurd hst (hnone id st), fun id st hst => absurd hst (hnone id st), ?_⟩
  · change s.blocks.lookup id = some e at he
    rw [hblocks, lookup_insert_ite] at he
    split at he
    · cases he
      exact ⟨Eq.symm ‹_›, hgenesisBlk⟩
    cases he
  · refine ⟨(genesisBlk, .accepted), ?_, hbody⟩
    show s.blocks.lookup s.lastAccepted = _
    rw [hblocks, hlast, lookup_insert]

end Run

end BlockManager

theorem State.header_syncGenesis {b : Backend} {s s' : State} {genesisBlk : Block} {g : Genesis}
    (h : s.syncGenesis b genesisBlk g = .ok s') :
    s'.header =
      (genesisBlk.id, s.currentHeight, s.blocks.insert genesisBlk.id (genesisBlk, .accepted)) := by
  obtain ⟨s1, hs1, h⟩ := bind_eq_ok.mp h
  have hchains : s'.header = s1.header := by
    refine foldlM_ok (P := fun s => s.header = s1.header) h rfl ?_
    intro s chain s' _ hs hs'
    rw [addGenesisChain] at hs'
    split at hs'
    · obtain ⟨-, hs'⟩ := then_eq_ok.mp hs'
      cases hs'
      exact hs
    · cases hs'
  have hvalidators := foldlM_ok (P := fun s => s.header = _) hs1
    (foldl_frame (g := header) (fun s u => s.header_modifyUTXO u.utxoID (some u)) _ _) (by
      intro s vdrTx s' _ hs hs'
      rw [addGenesisValidator] at hs'
      split at hs'
      · obtain ⟨supply, -, hs'⟩ := bind_eq_ok.mp hs'
        cases hs'
        exact hs
      · cases hs')
  exact hchains.trans hvalidators

open BlockManager in
/-- After every run of verifications, acceptances and rejections, in any order: a block is
    verified only if its parent is known, and is a proposal block exactly if the block is an
    option; a block that is verified is added to the map and nothing else. There is a panic
    exactly for a misplaced option, and any other error leaves the manager as it is. -/
theorem verify_of_run {b : Backend} {B : Set Block} {g : Genesis} {validators : Manager}
    {whitelistedSubnets : Finset ID} {orders : Orders} {genesisBlk : Block} {s s' : State}
    {inbound : ID → UTXOID → Option UTXO} {ops : List BlockManager.Op} {m : BlockManager}
    (hB : Set.InjOn Block.id B) (hgenesisBlk : genesisBlk ∈ B)
    (hbody : genesisBlk.body.isProposal = false)
    (hgenesis : (State.empty validators).syncGenesis b genesisBlk g = .ok s)
    (hwrite : s.write whitelistedSubnets orders = some s')
    (hops : ∀ op ∈ ops, ∀ blk ∈ op.block, blk ∈ B)
    (hrun : (BlockManager.new s' inbound).run b whitelistedSubnets ops = .ok m) (env : Env)
    {blk : Block} (hblk : blk ∈ B) :
    (∀ m', m.verify b env blk = .ok m' →
      (∃ p, m.getBlock blk.parent = some p ∧ blk.body.isOption = p.body.isProposal) ∧
      (m' = m ∨ m.blkIDToState.lookup blk.id = none ∧ ∃ st : BlockState, st.statelessBlock = blk ∧
        m' = { m with blkIDToState := m.blkIDToState.insert blk.id st })) ∧
    ((∃ e, m.verify b env blk = .error e ∧ e ≠ .nilDiff ∧
        m.execute b whitelistedSubnets (.verify env blk) = .ok m) ∨
      (∃ m', m.verify b env blk = .ok m') ↔ ¬m.Misplaced blk) := by
  have horacle : m.Oracle B := by
    refine foldlM_ok (P := Oracle B) hrun (oracle_new inbound hgenesisBlk hbody ?_)
      fun m op m' hop hm hm' => hm.execute hB (hops op hop) hm'
    rw [header_write hwrite, header_syncGenesis hgenesis]
    rfl
  refine ⟨fun m' hm' => ?_, fun hreturns hblk => ?_, fun hblk => ?_⟩
  · rcases verify_eq_ok hm' with ⟨⟨st, hst⟩, rfl⟩ | ⟨hnew, st, hst, rfl⟩
    · -- the block was verified before, and its parent is still known
      obtain ⟨hid, hmem⟩ := horacle.stores.stored _ st hst
      have hfits := horacle.fits _ st hst
      rw [hB hmem hblk hid] at hfits
      exact ⟨hfits, .inl rfl⟩
    obtain ⟨heq, -, hfits⟩ := horacle.of_verifyBody hst
    exact ⟨hfits, .inr ⟨hnew, st, heq, rfl⟩⟩
  · have hpanic := horacle.verify_misplaced b env hblk
    rcases hreturns with ⟨e, he, hne, -⟩ | ⟨m', hm'⟩
    · rw [hpanic] at he
      cases he
      exact hne rfl
    · rw [hpanic] at hm'
      cases hm'
  cases hverify : m.verify b env blk with
  | ok m' => exact .inr ⟨m', rfl⟩
  | error e =>
    have hne := (horacle.verify_returns b env hblk).of_error e hverify
    refine .inl ⟨e, rfl, hne, ?_⟩
    rw [BlockManager.execute, hverify]
    cases e
    case nilDiff => exact absurd rfl hne
    all_goals rfl

namespace SmallNetwork

/-- Maps are ranged over by ascending keys. -/
def orders : Orders where
  slots := .ascending (fun k => Nat.pair k.1.toBits.toNat k.2.toBits.toNat) (by
    rintro ⟨⟨a⟩, ⟨b⟩⟩ ⟨⟨a'⟩, ⟨b'⟩⟩ h
    obtain ⟨ha, hb⟩ := Nat.pair_eq_pair.mp h
    obtain rfl : a = a' := BitVec.eq_of_toNat_eq ha
    obtain rfl : b = b' := BitVec.eq_of_toNat_eq hb
    rfl)
  ids := .ids
  utxoIDs := .utxoIDs

/-- The advance of the time as a block, its commit, and a block that claims to be the commit of
    that one. -/
def proposalBlk : Block :=
  { id := ⟨11⟩, parent := genesisBlk.id, height := 1, body := .proposal advanceStx }

def commitBlk : Block := { id := ⟨12⟩, parent := proposalBlk.id, height := 2, body := .commit }

def secondCommitBlk : Block := { id := ⟨13⟩, parent := commitBlk.id, height := 3, body := .commit }

/-- The blocks of the network. -/
def blks : Set Block := {blk | blk ∈ [genesisBlk, proposalBlk, commitBlk, secondCommitBlk]}

theorem blks_injOn : Set.InjOn Block.id blks := by
  intro x hx y hy
  simp only [blks, mem_cons, not_mem_nil, or_false, Set.mem_ofPred_eq] at hx hy
  rcases hx with rfl | rfl | rfl | rfl <;> rcases hy with rfl | rfl | rfl | rfl <;> decide

/-- The manager of the network after some operations. -/
def manager (ops : List BlockManager.Op) : Except Err BlockManager := do
  let s ← (State.empty ∅).syncGenesis backend genesisBlk genesis
  let s ← Except.ofOption .overflow (s.write ∅ orders)
  (BlockManager.new s fun _ _ => none).run backend ∅ ops

end SmallNetwork

open SmallNetwork in
/-- The commit of the small network's proposal is verified on top of the proposal. -/
theorem verify_of_run_commit : ∃ m m' p, manager [.verify env proposalBlk] = .ok m ∧
    m.verify backend env commitBlk = .ok m' ∧ m.getBlock commitBlk.parent = some p ∧
    p.body.isProposal = true := by
  have hobserved : (manager [.verify env proposalBlk]).toOption.map
      (fun m => (m.verify backend env commitBlk).isOk) = some true := by decide +kernel
  obtain ⟨m, hm, hok⟩ := exists_of_observed hobserved
  obtain ⟨s, hs, hm'⟩ := bind_eq_ok.mp hm
  obtain ⟨s', hs', hrun⟩ := bind_eq_ok.mp hm'
  have hops : ∀ op ∈ [BlockManager.Op.verify env proposalBlk], ∀ blk ∈ op.block, blk ∈ blks := by
    intro op hop blk hblk
    obtain rfl := mem_singleton.mp hop
    cases hblk
    exact mem_cons_of_mem _ mem_cons_self
  have hcommit : commitBlk ∈ blks := mem_cons_of_mem _ (mem_cons_of_mem _ mem_cons_self)
  cases hverify : m.verify backend env commitBlk with
  | error e =>
    rw [hverify] at hok
    cases hok
  | ok m' =>
    obtain ⟨⟨p, hp, hbody⟩, -⟩ := (verify_of_run blks_injOn mem_cons_self rfl hs
      (ofOption_eq_ok.mp hs') hops hrun env hcommit).1 m' hverify
    exact ⟨m, m', p, hm, hverify, hp, hbody.symm⟩

open SmallNetwork in
/-- An option of an option panics. -/
theorem exists_nil_option : ∃ m, manager [.verify env proposalBlk, .verify env commitBlk] = .ok m ∧
    m.verify backend env secondCommitBlk = .error .nilDiff := by
  have hobserved : (manager [.verify env proposalBlk, .verify env commitBlk]).toOption.map
      (fun m => (m.verify backend env secondCommitBlk).failure) = some (some .nilDiff) := by
    decide +kernel
  obtain ⟨m, hm, hfail⟩ := exists_of_observed hobserved
  exact ⟨m, hm, failure_eq_some.mp hfail⟩

end SavannahNode.PlatformVM
