import SavannahNode.Spec.TopologicalPoll

/-!
# Agreement on one chain

What was decided in a run of `Topological`: the accepted blocks form one chain from the
root, no block is decided twice, and the tree holds the last accepted block and the added
blocks below it. Every other added block was rejected, except for those that `Add` refused
because they were not above the last accepted height.

## Key results

- `Topological.Ledger.accepted`: accepting a block extends the chain
- `Topological.agreement_run`: the whole statement, for every run
-/

namespace SavannahNode

open Decidables Function List Option SavannahNode.RootedTree

/-- The block an `Accept` call is about. -/
def Decision.accepted? : Decision → Option ID
  | .accept id => some id
  | .reject _ => none

namespace Decidables

/-- The objects that were accepted, oldest first. -/
def accepted (d : Decidables) : List ID := d.calls.filterMap Decision.accepted?

variable (d : Decidables) (id : ID) (rejected : List ID)

/-- The objects that were accepted or rejected, oldest first. -/
def decided : List ID := d.calls.map Decision.id

@[simp] theorem decided_reject : (d.reject id).decided = d.decided ++ [id] := by
  simp [decided, reject, Decision.id]

@[simp] theorem accepted_reject : (d.reject id).accepted = d.accepted := by
  simp [accepted, reject, Decision.accepted?]

theorem decided_accept_rejectAll :
    ((d.accept id).rejectAll rejected).decided = d.decided ++ id :: rejected := by
  simp [decided, calls_rejectAll, accept, Decision.id, comp_def]

theorem accepted_accept_rejectAll :
    ((d.accept id).rejectAll rejected).accepted = d.accepted ++ [id] := by
  simp [accepted, calls_rejectAll, accept, Decision.accepted?, filterMap_map, comp_def]

end Decidables

namespace Topological

/-! ## The blocks of a run -/

/-- The block an operation adds, if any. -/
def Op.blk? : Op → Option Block
  | .add blk => some blk
  | .recordPoll .. => none

/-- The blocks given to `Add`. -/
def added (ops : List Op) : List Block := ops.filterMap Op.blk?

/-- A new block: undecided when consensus starts, with a parent that is the root or was
    given before, one higher than its parent. -/
def Fresh (rootID : ID) (rootHeight : Nat) (status : ID → Status) (added : List Block)
    (blk : Block) : Prop :=
  blk.id ≠ rootID ∧ (∀ b ∈ added, b.id ≠ blk.id) ∧ (status blk.id).decided = false ∧
    ((blk.parent = rootID ∧ blk.height = rootHeight + 1) ∨
      ∃ b ∈ added, b.id = blk.parent ∧ blk.height = b.height + 1)

/-- What an operation may be, after the operations `before`: a fresh block, or a poll of at
    most `K` votes for anything. -/
def Op.Allowed (params : Parameters) (rootID : ID) (rootHeight : Nat) (status : ID → Status)
    (before : List Op) : Op → Prop
  | .add blk => Fresh rootID rootHeight status (added before) blk
  | .recordPoll _ _ votes => (votes.len : Int) ≤ params.k

/-- Every operation is allowed after the ones before it. -/
def Allowed (params : Parameters) (rootID : ID) (rootHeight : Nat) (status : ID → Status) :
    List Op → List Op → Prop
  | _, [] => True
  | before, op :: ops => op.Allowed params rootID rootHeight status before ∧
      Allowed params rootID rootHeight status (before ++ [op]) ops

theorem Allowed.of_append {params : Parameters} {rootID : ID} {rootHeight : Nat}
    {status : ID → Status} {before pre post : List Op} {op : Op}
    (h : Allowed params rootID rootHeight status before (pre ++ op :: post)) :
    op.Allowed params rootID rootHeight status (before ++ pre) := by
  induction pre generalizing before with
  | nil =>
    rw [append_nil]
    exact h.1
  | cons a pre ih =>
    have := ih h.2
    rwa [append_assoc] at this

/-- How the blocks given so far hang together. -/
structure Lineage (rootID : ID) (rootHeight : Nat) (added : List Block) : Prop where
  id_ne : ∀ b ∈ added, b.id ≠ rootID
  unique : ∀ b ∈ added, ∀ b' ∈ added, b.id = b'.id → b = b'
  parent : ∀ b ∈ added, (b.parent = rootID ∧ b.height = rootHeight + 1) ∨
    ∃ b' ∈ added, b'.id = b.parent ∧ b.height = b'.height + 1

theorem Lineage.concat {rootID : ID} {rootHeight : Nat} {status : ID → Status}
    {added : List Block} (h : Lineage rootID rootHeight added) {blk : Block}
    (hfresh : Fresh rootID rootHeight status added blk) :
    Lineage rootID rootHeight (added ++ [blk]) := by
  obtain ⟨hne, hnew, -, hparent⟩ := hfresh
  have hcases : ∀ b ∈ added ++ [blk], b ∈ added ∨ b = blk := fun b hb => by simpa using hb
  refine ⟨fun b hb => ?_, fun b hb b' hb' heq => ?_, fun b hb => ?_⟩
  · rcases hcases b hb with hb | rfl
    · exact h.id_ne b hb
    · exact hne
  · rcases hcases b hb with hold | rfl <;> rcases hcases b' hb' with hold' | rfl
    · exact h.unique b hold b' hold' heq
    · exact absurd heq (hnew b hold)
    · exact absurd heq.symm (hnew b' hold')
    · rfl
  have hmono : ∀ {p : Block → Prop}, (∃ b' ∈ added, p b') → ∃ b' ∈ added ++ [blk], p b' := by
    rintro p ⟨b', hb', hp⟩
    exact ⟨b', mem_append_left _ hb', hp⟩
  rcases hcases b hb with hb | rfl
  · exact (h.parent b hb).imp_right hmono
  · exact hparent.imp_right hmono

/-- The blocks form a chain that starts at a child of `id`. -/
def Linked : ID → List Block → Prop
  | _, [] => True
  | id, b :: blks => b.parent = id ∧ Linked b.id blks

/-- The ID at the end of a chain from `id`. -/
def lastID (id : ID) (blks : List Block) : ID := (blks.map Block.id).getLastD id

theorem Linked.concat {id : ID} {blks : List Block} (h : Linked id blks) {b : Block}
    (hb : b.parent = lastID id blks) : Linked id (blks ++ [b]) := by
  induction blks generalizing id with
  | nil => exact ⟨hb, trivial⟩
  | cons a blks ih =>
    refine ⟨h.1, ih h.2 ?_⟩
    rw [hb, lastID, lastID, map_cons, getLastD_cons]

@[simp] theorem lastID_concat (id : ID) (blks : List Block) (b : Block) :
    lastID id (blks ++ [b]) = b.id := by
  simp [lastID]

/-! ## The ledger -/

/-- What was decided of the blocks given so far, with the blocks `Refused` by `Add`. -/
structure Ledger (rootID : ID) (rootHeight : Nat) (status : ID → Status) (added : List Block)
    (Refused : Block → Prop) (ts : Topological) (T : RootedTree ID) : Prop where
  blk_added : ∀ id n b, ts.blocks.lookup id = some n → n.blk = some b → b ∈ added
  closed : ∀ b ∈ added, b.parent ∈ T.nodes → b.id ∈ T.nodes
  height_eq : ∀ id n b, ts.blocks.lookup id = some n → n.blk = some b →
    b.height = ts.height + (T.path id).length
  chain : ∃ blks : List Block, (∀ b ∈ blks, b ∈ added) ∧
    ts.decidables.accepted = blks.map Block.id ∧ Linked rootID blks ∧
    ts.head = lastID rootID blks ∧ ts.height = (blks.map Block.height).getLastD rootHeight
  nodup : ts.decidables.decided.Nodup
  decided_added : ∀ id ∈ ts.decidables.decided, ∃ b ∈ added, b.id = id
  status_decided : ∀ id ∈ ts.decidables.decided, (ts.decidables.status id).decided = true
  status_fresh : ∀ id ∉ ts.decidables.decided, ts.decidables.status id = status id
  accounted : ∀ b ∈ added, b.id ∈ T.nodes ∨ b.id ∈ ts.decidables.decided ∨ Refused b

section ledger

variable {rootID : ID} {rootHeight : Nat} {status : ID → Status} {blks : List Block}
  {Refused : Block → Prop} {ts ts' : Topological} {T T' : RootedTree ID}

theorem Ledger.quiet (h : Ledger rootID rootHeight status blks Refused ts T)
    (hquiet : Quiet ts ts') : Ledger rootID rootHeight status blks Refused ts' T := by
  obtain ⟨-, hhead, hheight, hdec, hblk⟩ := hquiet
  have hold : ∀ id n' b, ts'.blocks.lookup id = some n' → n'.blk = some b →
      ∃ n, ts.blocks.lookup id = some n ∧ n.blk = some b := by
    intro id n' b hn' hb
    have := hblk id
    rw [hn'] at this
    obtain ⟨n, hn, heq⟩ := map_eq_some_iff.mp this.symm
    exact ⟨n, hn, heq.trans hb⟩
  refine ⟨fun id n' b hn' hb => ?_, h.closed, fun id n' b hn' hb => ?_, ?_, ?_, ?_, ?_, ?_, ?_⟩
  · obtain ⟨n, hn, hb⟩ := hold id n' b hn' hb
    exact h.blk_added id n b hn hb
  · obtain ⟨n, hn, hb⟩ := hold id n' b hn' hb
    rw [hheight]
    exact h.height_eq id n b hn hb
  · rw [hdec, hhead, hheight]
    exact h.chain
  · rw [hdec]
    exact h.nodup
  · rw [hdec]
    exact h.decided_added
  · rw [hdec]
    exact h.status_decided
  · rw [hdec]
    exact h.status_fresh
  · rw [hdec]
    exact h.accounted

variable {id p nextID : ID} {n : SnowmanBlock} {sb : Tree} {votes : Bag}

section

variable (h : Ledger rootID rootHeight status blks Refused ts T)

include h

/-- The tree's blocks below the head are undecided. -/
theorem Ledger.notMem_decided (hshape : Shape ts T) (hid : id ∈ T.nodes) (hr : id ≠ T.root) :
    id ∉ ts.decidables.decided := by
  intro hmem
  obtain ⟨n, hn⟩ := hshape.mem_iff.mp hid
  obtain ⟨b, -, -, -, hst⟩ := hshape.blk id n hn (hshape.root_eq ▸ hr)
  rw [h.status_decided id hmem] at hst
  cases hst

/-- A block of the tree other than the head was added. -/
theorem Ledger.exists_added (hshape : Shape ts T) (hid : id ∈ T.nodes) (hr : id ≠ T.root) :
    ∃ n, ∃ b ∈ blks, ts.blocks.lookup id = some n ∧ n.blk = some b ∧ b.id = id ∧
      b.parent = T.parent id := by
  obtain ⟨n, hn⟩ := hshape.mem_iff.mp hid
  obtain ⟨b, hb, hbid, hparent, -⟩ := hshape.blk id n hn (hshape.root_eq ▸ hr)
  exact ⟨n, b, h.blk_added id n b hn hb, hn, hb, hbid, hparent⟩

/-- The height of an added block with the head's ID is the height reached. -/
theorem Ledger.height_head (hline : Lineage rootID rootHeight blks) {b : Block} (hb : b ∈ blks)
    (hid : b.id = ts.head) : b.height = ts.height ∧ b.id ∈ ts.decidables.decided := by
  obtain ⟨chain, hsub, hacc, -, hhead, hheight⟩ := h.chain
  rcases eq_nil_or_concat chain with rfl | ⟨chain, last, rfl⟩
  · exact absurd (hid.trans hhead) (hline.id_ne b hb)
  rw [concat_eq_append] at hsub hacc hhead hheight
  have hlast : last ∈ blks := hsub last (by simp)
  rw [lastID_concat] at hhead
  obtain rfl := hline.unique b hb last hlast (hid.trans hhead)
  refine ⟨by simp [hheight], ?_⟩
  have hmem : b.id ∈ ts.decidables.accepted := by
    rw [hacc]
    simp
  obtain ⟨d, hd, hdid⟩ := mem_filterMap.mp hmem
  refine mem_map.mpr ⟨d, hd, ?_⟩
  cases d with
  | accept id => exact some.inj hdid
  | reject id => cases hdid

/-- A block whose parent is in the tree is above it. -/
theorem Ledger.height_child
    (hshape : Shape ts T) (hline : Lineage rootID rootHeight blks) {b : Block}
    (hb : (b.parent = rootID ∧ b.height = rootHeight + 1) ∨
      ∃ b' ∈ blks, b'.id = b.parent ∧ b.height = b'.height + 1)
    (hp : b.parent ∈ T.nodes) : b.height = ts.height + (T.path b.parent).length + 1 := by
  by_cases hr : b.parent = T.root
  · rw [hr, path_root, length_nil]
    have hhead : b.parent = ts.head := hr.trans hshape.root_eq
    rcases hb with ⟨hroot, hheight⟩ | ⟨b', hb', hid, hheight⟩
    · -- the head is still the root
      obtain ⟨chain, hsub, -, -, hlast, hts⟩ := h.chain
      rcases eq_nil_or_concat chain with rfl | ⟨chain, last, rfl⟩
      · rw [hheight, hts]
        rfl
      rw [concat_eq_append] at hsub hlast
      rw [lastID_concat, ← hhead, hroot] at hlast
      exact absurd hlast.symm (hline.id_ne last (hsub last (by simp)))
    have := (h.height_head hline hb' (hid.trans hhead)).1
    omega
  · obtain ⟨n, b2, hb2, hn, hblk, hbid, -⟩ := h.exists_added hshape hp hr
    have hheight2 := h.height_eq _ n b2 hn hblk
    rcases hb with ⟨hroot, -⟩ | ⟨b', hb', hid, hheight⟩
    · exact absurd (hbid.trans hroot) (hline.id_ne b2 hb2)
    obtain rfl := hline.unique b2 hb2 b' hb' (hbid.trans hid.symm)
    omega

end

/-- Applying votes changes no block. -/
theorem Applied.blk (happ : Applied ts T p n sb votes nextID ts' T') {n' : SnowmanBlock}
    (hn' : ts'.blocks.lookup id = some n') :
    ∃ m, ts.blocks.lookup id = some m ∧ m.blk = n'.blk := by
  rw [happ.lookup id (happ.shape.mem_iff.mpr ⟨n', hn'⟩)] at hn'
  obtain ⟨m, hm, rfl⟩ := map_eq_some_iff.mp hn'
  refine ⟨m, hm, ?_⟩
  rw [applyNode]
  split
  · rfl
  · split <;> rfl

section

variable (h : Ledger rootID rootHeight status blks Refused ts T)

include h

/-- Votes that accept nothing leave the ledger as it is. -/
theorem Ledger.kept {sb' : Tree} (happ : Applied ts T p n sb votes nextID ts' T')
    (hkept : Kept ts T p sb' ts' T') : Ledger rootID rootHeight status blks Refused ts' T' := by
  obtain ⟨-, rfl, hdec, hhead, hheight, -⟩ := hkept
  refine ⟨fun id n' b hn' hb => ?_, h.closed, fun id n' b hn' hb => ?_, ?_, ?_, ?_, ?_, ?_, ?_⟩
  · obtain ⟨m, hm, hblk⟩ := happ.blk hn'
    exact h.blk_added id m b hm (hblk.trans hb)
  · obtain ⟨m, hm, hblk⟩ := happ.blk hn'
    rw [hheight]
    exact h.height_eq id m b hm (hblk.trans hb)
  · rw [hdec, hhead, hheight]
    exact h.chain
  · rw [hdec]
    exact h.nodup
  · rw [hdec]
    exact h.decided_added
  · rw [hdec]
    exact h.status_decided
  · rw [hdec]
    exact h.status_fresh
  · rw [hdec]
    exact h.accounted

/-- Accepting a child of the head extends the chain, and decides everything that leaves the
    tree. -/
theorem Ledger.accepted (hshape : Shape ts T) (hline : Lineage rootID rootHeight blks) {sb' : Tree}
    (happ : Applied ts T p n sb votes nextID ts' T') (hacc : Accepted ts T p sb' ts' T') :
    Ledger rootID rootHeight status blks Refused ts' T' := by
  obtain ⟨-, -, hchild, rfl, ⟨rejected, hdec, hrejn, hrejmem⟩, hhead, ⟨m, b, hm, hb, hheight⟩, -⟩ :=
    hacc
  set c := sb'.preference with hc
  have hself := self_mem_path hchild.1 hchild.2.1
  have hparent : T.parent c = T.root := hchild.2.2
  obtain ⟨b2, hb2, hbid, hbparent, -⟩ := hshape.blk c m hm (hshape.root_eq ▸ hchild.2.1)
  obtain rfl := some.inj (hb.symm.trans hb2)
  have hbadded := h.blk_added c m b hm hb
  have hbheight : b.height = ts.height + 1 := by
    have := h.height_eq c m b hm hb
    rw [T.path_cons hchild.1 hchild.2.1, hparent, path_root] at this
    exact this
  -- what is decided now was undecided
  have hdecided : ts'.decidables.decided = ts.decidables.decided ++ c :: rejected := by
    rw [hdec, decided_accept_rejectAll]
  have hnew : ∀ id ∈ c :: rejected, id ∈ T.nodes ∧ id ≠ T.root := by
    intro id hid
    rcases mem_cons.mp hid with rfl | hid
    · exact ⟨hchild.1, hchild.2.1⟩
    · exact ⟨((hrejmem id).mp hid).1, ((hrejmem id).mp hid).2.1⟩
  have hcrej : c ∉ rejected := fun hmem => ((hrejmem c).mp hmem).2.2 hself
  have hstatus : ∀ id ∉ c :: rejected, ts'.decidables.status id = ts.decidables.status id := by
    intro id hid
    rw [mem_cons, not_or] at hid
    rw [hdec, status_rejectAll, if_neg hid.2]
    exact update_of_ne hid.1 ..
  refine ⟨?_, ?_, ?_, ?_, ?_, ?_, ?_, ?_, ?_⟩
  · intro id n' b' hn' hb'
    obtain ⟨k, hk, hblk⟩ := happ.blk hn'
    exact h.blk_added id k b' hk (hblk.trans hb')
  · intro b' hb' hp
    rw [mem_subtree] at hp ⊢
    have hpm := of_mem_path hp
    have hmem := h.closed b' hb' hpm.1
    by_cases hr : b'.id = T.root
    · -- the head is not above one of its descendants
      have hlow := (h.height_head hline hb' (hr.trans hshape.root_eq)).1
      have hhigh := h.height_child hshape hline (hline.parent b' hb') hpm.1
      omega
    obtain ⟨k, b3, hb3, hk, hblk, hid, hpar⟩ := h.exists_added hshape hmem hr
    obtain rfl := hline.unique b3 hb3 b' hb' hid
    exact mem_path_of_parent hmem hr (hpar ▸ hp)
  · intro id n' b' hn' hb'
    have hpath := (mem_subtree hchild.1 hchild.2.1).mp (happ.shape.mem_iff.mpr ⟨n', hn'⟩)
    obtain ⟨k, hk, hblk⟩ := happ.blk hn'
    have hold := h.height_eq id k b' hk (hblk.trans hb')
    rw [length_path_subtree hchild.1 hchild.2.1 hparent hpath] at hold
    show b'.height = ts'.height + ((T.subtree c hchild.1 hchild.2.1).path id).length
    omega
  · obtain ⟨chain, hsub, hacc, hlinked, hlast, -⟩ := h.chain
    refine ⟨chain ++ [b], ?_, ?_, hlinked.concat ?_, ?_, ?_⟩
    · intro b' hb'
      rcases mem_append.mp hb' with hb' | hb'
      · exact hsub b' hb'
      · exact mem_singleton.mp hb' ▸ hbadded
    · rw [hdec, accepted_accept_rejectAll, hacc, map_append, ← hbid]
      rfl
    · rw [hbparent, hparent, hshape.root_eq, hlast]
    · rw [hhead, lastID_concat, hbid]
    · simp [hheight]
  · rw [hdecided, nodup_append']
    refine ⟨h.nodup, nodup_cons.mpr ⟨hcrej, hrejn⟩, fun id hold hid => ?_⟩
    exact h.notMem_decided hshape (hnew id hid).1 (hnew id hid).2 hold
  · intro id hid
    rw [hdecided, mem_append] at hid
    rcases hid with hid | hid
    · exact h.decided_added id hid
    obtain ⟨k, b', hb', -, -, hid', -⟩ := h.exists_added hshape (hnew id hid).1 (hnew id hid).2
    exact ⟨b', hb', hid'⟩
  · intro id hid
    by_cases hrej : id ∈ rejected
    · rw [hdec, status_rejectAll, if_pos hrej]
      rfl
    by_cases hidc : id = c
    · have haccepted : (ts.decidables.accept c).status c = .accepted := update_self ..
      rw [hdec, status_rejectAll, if_neg hrej, hidc, haccepted]
      rfl
    have hnot : id ∉ c :: rejected := fun hmem => (mem_cons.mp hmem).elim hidc hrej
    rw [hdecided, mem_append] at hid
    rw [hstatus id hnot]
    exact h.status_decided id (hid.resolve_right hnot)
  · intro id hid
    rw [hdecided, mem_append, not_or] at hid
    rw [hstatus id hid.2]
    exact h.status_fresh id hid.1
  · intro b' hb'
    rw [hdecided]
    rcases h.accounted b' hb' with hmem | hdec' | href
    · by_cases hr : b'.id = T.root
      · have := (h.height_head hline hb' (hr.trans hshape.root_eq)).2
        exact .inr (.inl (mem_append_left _ this))
      by_cases hpath : c ∈ T.path b'.id
      · exact .inl ((mem_subtree _ _).mpr hpath)
      have hrej := (hrejmem b'.id).mpr ⟨hmem, hr, hpath⟩
      exact .inr (.inl (mem_append_right _ (mem_cons_of_mem _ hrej)))
    · exact .inr (.inl (mem_append_left _ hdec'))
    · exact .inr (.inr href)

/-! ## Adding a block -/

/-- The head is the root or a block given before. -/
theorem Ledger.head_cases : ts.head = rootID ∨ ∃ b ∈ blks, b.id = ts.head := by
  obtain ⟨chain, hsub, -, -, hhead, -⟩ := h.chain
  rcases eq_nil_or_concat chain with rfl | ⟨chain, last, rfl⟩
  · exact .inl hhead
  rw [concat_eq_append] at hsub hhead
  rw [lastID_concat] at hhead
  exact .inr ⟨last, hsub last (by simp), hhead.symm⟩

/-- Nothing is known of a fresh block. -/
theorem Ledger.unknown
    (hshape : Shape ts T) {blk : Block} (hfresh : Fresh rootID rootHeight status blks blk) :
    blk.id ∉ T.nodes ∧ blk.id ∉ ts.decidables.decided ∧
      (ts.decidables.status blk.id).decided = false := by
  obtain ⟨hne, hnew, hst, -⟩ := hfresh
  have hundecided : blk.id ∉ ts.decidables.decided := by
    intro hmem
    obtain ⟨b, hb, hid⟩ := h.decided_added _ hmem
    exact hnew b hb hid
  refine ⟨fun hmem => ?_, hundecided, ?_⟩
  · by_cases hr : blk.id = T.root
    · rcases h.head_cases with hroot | ⟨b, hb, hid⟩
      · exact hne (hr.trans (hshape.root_eq.trans hroot))
      · exact hnew b hb (hid.trans (hr.trans hshape.root_eq).symm)
    obtain ⟨n, b, hb, -, -, hid, -⟩ := h.exists_added hshape hmem hr
    exact hnew b hb hid
  · rw [h.status_fresh _ hundecided]
    exact hst

end

variable {Refused' : Block → Prop}

section

variable (h : Ledger rootID rootHeight status blks Refused ts T) (hshape : Shape ts T)

include h hshape

/-- A fresh block is refused only for its height, and then its parent is not in the tree. -/
theorem Ledger.refused (hline : Lineage rootID rootHeight blks) {blk : Block}
    (hfresh : Fresh rootID rootHeight status blks blk)
    (hdup : ts.decided blk = true ∨ ts.processing blk.id = true)
    (hmono : ∀ b, Refused b → Refused' b) (href : blk.height ≤ ts.height → Refused' blk) :
    Ledger rootID rootHeight status (blks ++ [blk]) Refused' ts T := by
  obtain ⟨hmem, -, hst⟩ := h.unknown hshape hfresh
  have hheight : blk.height ≤ ts.height := by
    rcases hdup with hdec | hproc
    · rw [decided, hst, Bool.false_or, Bool.and_eq_true] at hdec
      exact of_decide_eq_true hdec.2
    rw [processing] at hproc
    split at hproc
    · cases hproc
    · exact absurd (hshape.mem_iff.mpr (isSome_iff_exists.mp hproc)) hmem
  have hcases : ∀ b ∈ blks ++ [blk], b ∈ blks ∨ b = blk := fun b hb => by simpa using hb
  refine { h with blk_added := ?_, closed := ?_, chain := ?_, decided_added := ?_, accounted := ?_ }
  · intro id n b hn hb
    exact mem_append_left _ (h.blk_added id n b hn hb)
  · intro b hb hp
    rcases hcases b hb with hb | rfl
    · exact h.closed b hb hp
    have := h.height_child hshape hline hfresh.2.2.2 hp
    omega
  · obtain ⟨chain, hsub, hrest⟩ := h.chain
    exact ⟨chain, fun b hb => mem_append_left _ (hsub b hb), hrest⟩
  · intro id hid
    obtain ⟨b, hb, hbid⟩ := h.decided_added id hid
    exact ⟨b, mem_append_left _ hb, hbid⟩
  intro b hb
  rcases hcases b hb with hb | rfl
  · exact (h.accounted b hb).imp_right (Or.imp_right (hmono b))
  · exact .inr (.inr (href hheight))

/-- A fresh block without its parent is rejected. -/
theorem Ledger.orphan {blk : Block} (hfresh : Fresh rootID rootHeight status blks blk)
    (hp : blk.parent ∉ T.nodes) (hmono : ∀ b, Refused b → Refused' b) :
    Ledger rootID rootHeight status (blks ++ [blk]) Refused'
      { ts with decidables := ts.decidables.reject blk.id } T := by
  obtain ⟨hmem, hundecided, -⟩ := h.unknown hshape hfresh
  have hdecided : (ts.decidables.reject blk.id).decided = ts.decidables.decided ++ [blk.id] :=
    decided_reject ..
  have hcases : ∀ b ∈ blks ++ [blk], b ∈ blks ∨ b = blk := fun b hb => by simpa using hb
  refine { h with
    blk_added := ?_, closed := ?_, chain := ?_, nodup := ?_, decided_added := ?_,
    status_decided := ?_, status_fresh := ?_, accounted := ?_ }
  · intro id n b hn hb
    exact mem_append_left _ (h.blk_added id n b hn hb)
  · intro b hb hp'
    rcases hcases b hb with hb | rfl
    · exact h.closed b hb hp'
    · exact absurd hp' hp
  · obtain ⟨chain, hsub, hrest⟩ := h.chain
    refine ⟨chain, fun b hb => mem_append_left _ (hsub b hb), ?_⟩
    rw [accepted_reject]
    exact hrest
  · rw [hdecided, nodup_append']
    refine ⟨h.nodup, nodup_singleton _, fun id hold hid => ?_⟩
    exact hundecided (mem_singleton.mp hid ▸ hold)
  · intro id hid
    rw [hdecided, mem_append, mem_singleton] at hid
    rcases hid with hid | rfl
    · obtain ⟨b, hb, hbid⟩ := h.decided_added id hid
      exact ⟨b, mem_append_left _ hb, hbid⟩
    · exact ⟨blk, by simp, rfl⟩
  · intro id hid
    rw [hdecided, mem_append, mem_singleton] at hid
    by_cases heq : id = blk.id
    · have hrejected : (ts.decidables.reject blk.id).status blk.id = .rejected := update_self ..
      rw [heq, hrejected]
      rfl
    have hold : (ts.decidables.reject blk.id).status id = ts.decidables.status id :=
      update_of_ne heq ..
    rw [hold]
    exact h.status_decided id (hid.resolve_right heq)
  · intro id hid
    rw [hdecided, mem_append, mem_singleton, not_or] at hid
    have hold : (ts.decidables.reject blk.id).status id = ts.decidables.status id :=
      update_of_ne hid.2 ..
    rw [hold]
    exact h.status_fresh id hid.1
  · intro b hb
    rw [hdecided]
    rcases hcases b hb with hb | rfl
    · exact (h.accounted b hb).imp_right (Or.imp (mem_append_left _) (hmono b))
    · exact .inr (.inl (by simp))

/-- A fresh block under its parent enters the tree. -/
theorem Ledger.extend (hline : Lineage rootID rootHeight blks) {blk : Block}
    (hfresh : Fresh rootID rootHeight status blks blk) (hid : blk.id ∉ T.nodes)
    (hp : blk.parent ∈ T.nodes) {parentNode : SnowmanBlock}
    (hn : ts.blocks.lookup blk.parent = some parentNode) (hmono : ∀ b, Refused b → Refused' b) :
    Ledger rootID rootHeight status (blks ++ [blk]) Refused' (ts.extend parentNode blk)
      (T.addLeaf blk.id blk.parent hid hp) := by
  have hcases : ∀ b ∈ blks ++ [blk], b ∈ blks ∨ b = blk := fun b hb => by simpa using hb
  -- a block in the new tree is the new one or was there
  have hblk : ∀ id n b, (ts.extend parentNode blk).blocks.lookup id = some n → n.blk = some b →
      (id = blk.id ∧ b = blk) ∨ ∃ m, ts.blocks.lookup id = some m ∧ m.blk = some b := by
    intro id n b hlookup hb
    rw [lookup_extend] at hlookup
    split at hlookup
    · rename_i heq
      obtain rfl := some.inj hlookup
      exact .inl ⟨heq, (some.inj hb).symm⟩
    split at hlookup
    · rename_i heq
      obtain rfl := some.inj hlookup
      rw [SnowmanBlock.blk_addChild] at hb
      exact .inr ⟨parentNode, heq ▸ hn, hb⟩
    · exact .inr ⟨n, hlookup, hb⟩
  refine ⟨?_, ?_, ?_, ?_, h.nodup, ?_, h.status_decided, h.status_fresh, ?_⟩
  · intro id n b hlookup hb
    rcases hblk id n b hlookup hb with ⟨-, rfl⟩ | ⟨m, hm, hb⟩
    · simp
    · exact mem_append_left _ (h.blk_added id m b hm hb)
  · intro b hb hp'
    rw [nodes_addLeaf, Finset.mem_insert] at hp' ⊢
    rcases hcases b hb with hb | rfl
    · -- no block given before is a child of the new one
      have hne : b.parent ≠ blk.id := by
        intro heq
        rcases hline.parent b hb with ⟨hroot, -⟩ | ⟨b', hb', hbid, -⟩
        · exact hfresh.1 (heq.symm.trans hroot)
        · exact hfresh.2.1 b' hb' (hbid.trans heq)
      exact .inr (h.closed b hb (hp'.resolve_left hne))
    · exact .inl rfl
  · intro id n b hlookup hb
    show b.height = ts.height + _
    rcases hblk id n b hlookup hb with ⟨rfl, rfl⟩ | ⟨m, hm, hb⟩
    · rw [path_addLeaf_self, length_cons,
        h.height_child hshape hline hfresh.2.2.2 hp, Nat.add_assoc]
    rw [path_addLeaf hid hp (hshape.mem_iff.mpr ⟨m, hm⟩)]
    exact h.height_eq id m b hm hb
  · obtain ⟨chain, hsub, hrest⟩ := h.chain
    exact ⟨chain, fun b hb => mem_append_left _ (hsub b hb), hrest⟩
  · intro id hid'
    obtain ⟨b, hb, hbid⟩ := h.decided_added id hid'
    exact ⟨b, mem_append_left _ hb, hbid⟩
  · intro b hb
    rcases hcases b hb with hb | rfl
    · exact (h.accounted b hb).imp (Finset.mem_insert_of_mem ·) (Or.imp_right (hmono b))
    · exact .inl (Finset.mem_insert_self _ _)

end

end ledger

/-! ## Runs -/

section runs

variable {params : Parameters} {rootID : ID} {rootHeight : Nat} {status : ID → Status}
  {ts₀ ts : Topological} {T : RootedTree ID}

/-- `Add` refused the block in the run and changed nothing, since the block was not above the
    last accepted height. -/
def RefusedIn (ts₀ : Topological) (ops : List Op) (blk : Block) : Prop :=
  ∃ pre post mid, ops = pre ++ .add blk :: post ∧ ts₀.run pre = some mid ∧
    mid.add blk = (mid, some .errDuplicateAdd) ∧ blk.height ≤ mid.height

variable {ops : List Op}

theorem RefusedIn.concat {blk : Block} (h : RefusedIn ts₀ ops blk) (op : Op) :
    RefusedIn ts₀ (ops ++ [op]) blk := by
  obtain ⟨pre, post, mid, hops, hrest⟩ := h
  exact ⟨pre, post ++ [op], mid, by simp [hops], hrest⟩

theorem RefusedIn.mem_added {blk : Block} (h : RefusedIn ts₀ ops blk) : blk ∈ added ops := by
  obtain ⟨pre, post, mid, rfl, -⟩ := h
  simp [added, Op.blk?]

/-- What was refused was refused before, or by the last operation. -/
theorem RefusedIn.of_concat {blk : Block} {op : Op} (hrun : ts₀.run ops = some ts)
    (h : RefusedIn ts₀ (ops ++ [op]) blk) :
    RefusedIn ts₀ ops blk ∨ op = .add blk ∧ ts.add blk = (ts, some .errDuplicateAdd) := by
  obtain ⟨pre, post, mid, hops, hmid, hrest⟩ := h
  rcases eq_nil_or_concat post with rfl | ⟨post, last, rfl⟩
  · obtain ⟨rfl, hop⟩ := append_inj' hops rfl
    obtain rfl := some.inj (hrun.symm.trans hmid)
    exact .inr ⟨(cons.inj hop).1, hrest.1⟩
  · rw [concat_eq_append, ← cons_append, ← append_assoc] at hops
    obtain ⟨rfl, -⟩ := append_inj' hops rfl
    exact .inl ⟨pre, post, mid, rfl, hmid, hrest⟩

theorem ledger_init (hinit : init params rootID rootHeight status = .ok ts) :
    Ledger rootID rootHeight status [] (RefusedIn ts []) ts (.single rootID) := by
  rw [init] at hinit
  split at hinit
  · cases hinit
  obtain rfl := Except.ok.inj hinit
  have hnone : ∀ id n b, ((∅ : IDMap SnowmanBlock).insert rootID (.new none)).lookup id = some n →
      n.blk ≠ some b := by
    intro id n b hn
    rw [Finmap.lookup_insert_ite] at hn
    split at hn
    · obtain rfl := some.inj hn
      simp [SnowmanBlock.new]
    · simp at hn
  refine ⟨?_, ?_, ?_, ⟨[], ?_⟩, nodup_nil, ?_, ?_, fun _ _ => rfl, ?_⟩
  · intro id n b hn hb
    exact absurd hb (hnone id n b hn)
  · intro b hb
    cases hb
  · intro id n b hn hb
    exact absurd hb (hnone id n b hn)
  · exact ⟨fun b hb => (not_mem_nil hb).elim, rfl, trivial, rfl, rfl⟩
  · intro id hid
    cases hid
  · intro id hid
    cases hid
  · intro b hb
    cases hb

/-- What holds after the operations `ops`. -/
def Agreed (params : Parameters) (rootID : ID) (rootHeight : Nat) (status : ID → Status)
    (ts₀ : Topological) (ops : List Op) (ts : Topological) : Prop :=
  ts₀.run ops = some ts ∧ ts.params = params ∧ Lineage rootID rootHeight (added ops) ∧
    ∃ T, Shape ts T ∧ Tailed ts T ∧
      Ledger rootID rootHeight status (added ops) (RefusedIn ts₀ ops) ts T ∧
      ∀ b, RefusedIn ts₀ ops b → b.id ∉ T.nodes

theorem Agreed.add (h : Agreed params rootID rootHeight status ts₀ ops ts) {blk : Block}
    (hfresh : Fresh rootID rootHeight status (added ops) blk) :
    Agreed params rootID rootHeight status ts₀ (ops ++ [.add blk]) (ts.add blk).1 := by
  obtain ⟨hrun, hparams, hline, T, hshape, htail, hledger, hout⟩ := h
  have hadded : added (ops ++ [.add blk]) = added ops ++ [blk] := by simp [added, Op.blk?]
  have hmono : ∀ b, RefusedIn ts₀ ops b → RefusedIn ts₀ (ops ++ [.add blk]) b :=
    fun b hb => hb.concat _
  obtain ⟨hid, -, hst⟩ := hledger.unknown hshape hfresh
  refine ⟨run_concat hrun rfl, (ts.params_add blk).trans hparams,
    by rw [hadded]; exact hline.concat hfresh, ?_⟩
  rw [hadded]
  -- a fresh block was not in the tree, so it is out of it if it is refused now
  have hout' : ∀ b, RefusedIn ts₀ (ops ++ [.add blk]) b → b.id ∉ T.nodes := by
    intro b hb
    rcases hb.of_concat hrun with hb | ⟨hop, -⟩
    · exact hout b hb
    · cases hop
      exact hid
  rcases ts.add_cases blk with ⟨hdup, hadd⟩ | ⟨-, -, hnone, hadd⟩ | ⟨-, -, parentNode, hn, hadd⟩
  · rw [hadd]
    refine ⟨T, hshape, htail, hledger.refused hshape hline hfresh hdup hmono fun hheight => ?_,
      hout'⟩
    exact ⟨ops, [], ts, rfl, hrun, hadd, hheight⟩
  · rw [hadd]
    have hp : blk.parent ∉ T.nodes := by
      intro hmem
      obtain ⟨n, hn⟩ := hshape.mem_iff.mp hmem
      rw [hnone] at hn
      cases hn
    exact ⟨T, hshape.reject hid, { htail with }, hledger.orphan hshape hfresh hp hmono, hout'⟩
  rw [hadd]
  have hp : blk.parent ∈ T.nodes := hshape.mem_iff.mpr ⟨parentNode, hn⟩
  refine ⟨_, hshape.extend hid hp hst hn, htail.extend hid hp parentNode,
    hledger.extend hshape hline hfresh hid hp hn hmono, fun b hb => ?_⟩
  -- the new block was not refused, and no block refused before has its ID
  rw [nodes_addLeaf, Finset.mem_insert, not_or]
  refine ⟨?_, hout' b hb⟩
  rcases hb.of_concat hrun with hb | ⟨hop, hdup⟩
  · exact hfresh.2.1 b hb.mem_added
  · cases hop
    rw [hadd] at hdup
    cases (Prod.mk.inj hdup).2

theorem Agreed.recordPoll (h : Agreed params rootID rootHeight status ts₀ ops ts)
    (hvalid : params.Valid) (pops order : RangeOrder ID) {votes : Bag}
    (hlen : (votes.len : Int) ≤ params.k) :
    ∃ ts', ts.recordPoll pops order votes = some ts' ∧
      Agreed params rootID rootHeight status ts₀ (ops ++ [.recordPoll pops order votes]) ts' := by
  obtain ⟨hrun, hparams, hline, T, hshape, htail, hledger, hout⟩ := h
  have hadded : added (ops ++ [.recordPoll pops order votes]) = added ops := by
    simp [added, Op.blk?]
  -- the tree keeps its nodes, or those below the accepted child
  have hrule := @recordPoll_rule ts T
    (fun ts T => Ledger rootID rootHeight status (added ops) (RefusedIn ts₀ ops) ts T ∧
      ∀ b, RefusedIn ts₀ ops b → b.id ∉ T.nodes) (fun h hquiet => ⟨h.1.quiet hquiet, h.2⟩) <| by
    rintro ts T p n sb votes nextID ts' T' ⟨h, hout⟩ hshape - - happ (hkept | hacc)
    · exact ⟨h.kept happ hkept, hkept.tree ▸ hout⟩
    refine ⟨h.accepted hshape hline happ hacc, fun b hb hmem => hout b hb ?_⟩
    rw [hacc.tree, mem_subtree] at hmem
    exact (of_mem_path hmem).1
  obtain ⟨ts', T', hpoll, hshape', hparams', ⟨hledger', hout'⟩, htail'⟩ :=
    hrule pops order hshape (hparams ▸ hvalid) (hparams ▸ hlen) ⟨hledger, hout⟩ htail
  refine ⟨ts', hpoll, run_concat hrun hpoll, hparams'.trans hparams, by rw [hadded]; exact hline,
    T', hshape', htail', ?_⟩
  rw [hadded]
  refine ⟨{ hledger' with accounted := fun b hb => ?_ }, fun b hb => ?_⟩
  · exact (hledger'.accounted b hb).imp_right (Or.imp_right fun href => href.concat _)
  · rcases hb.of_concat hrun with hb | ⟨hop, -⟩
    · exact hout' b hb
    · cases hop

/-- `id` is the ID of a block given to `Add` that is a strict descendant of `a`. -/
inductive Descends (added : List Block) (a : ID) : ID → Prop where
  | child (b : Block) (hb : b ∈ added) (hparent : b.parent = a) : Descends added a b.id
  | step (b : Block) (hb : b ∈ added) (hparent : Descends added a b.parent) : Descends added a b.id

/-- The tree holds the head and all the blocks below it. -/
theorem Ledger.mem_nodes_iff {blks : List Block} {Refused : Block → Prop}
    (h : Ledger rootID rootHeight status blks Refused ts T) (hshape : Shape ts T) (id : ID) :
    id ∈ T.nodes ↔ id = ts.head ∨ Descends blks ts.head id := by
  constructor
  · intro hid
    refine T.induction (P := fun id => id = ts.head ∨ Descends blks ts.head id)
      (.inl hshape.root_eq) (fun id hid hr ih => ?_) id hid
    obtain ⟨n, b, hb, -, -, rfl, hparent⟩ := h.exists_added hshape hid hr
    rw [← hparent] at ih
    rcases ih with ih | ih
    · exact .inr (.child b hb ih)
    · exact .inr (.step b hb ih)
  rintro (rfl | hdesc)
  · exact hshape.root_eq ▸ T.root_mem
  · induction hdesc with
    | child b hb hparent => exact h.closed b hb (hparent ▸ hshape.root_eq ▸ T.root_mem)
    | step b hb _ ih => exact h.closed b hb ih

/-- **Agreement**: the blocks accepted in a run form one chain from the root to the head.
    No block is decided twice. The tree holds the head and the added blocks below it. Every
    other block given to `Add` was rejected, unless `Add` refused it for its height; no refused
    block is in the tree. -/
theorem agreement_run (hinit : init params rootID rootHeight status = .ok ts₀) (ops : List Op)
    (hops : Allowed params rootID rootHeight status [] ops) :
    ∃ ts, ts₀.run ops = some ts ∧ (∃ chain : List Block, (∀ b ∈ chain, b ∈ added ops) ∧
        ts.decidables.accepted = chain.map Block.id ∧ Linked rootID chain ∧
        ts.head = lastID rootID chain ∧
        ts.height = (chain.map Block.height).getLastD rootHeight) ∧
      ts.decidables.decided.Nodup ∧
      (∀ id, id ∈ ts.blocks ↔ id = ts.head ∨ Descends (added ops) ts.head id) ∧
      (∀ b ∈ added ops, b.id ∉ ts.blocks → b.id ∉ ts.decidables.accepted →
        Decision.reject b.id ∈ ts.decidables.calls ∨ RefusedIn ts₀ ops b) ∧
      ∀ b, RefusedIn ts₀ ops b → b.id ∉ ts.blocks := by
  obtain ⟨hverify, hparams⟩ := verify_of_init hinit
  have hvalid := Parameters.valid_of_verify hverify
  have hline : Lineage rootID rootHeight [] :=
    ⟨fun b hb => (not_mem_nil hb).elim, fun b hb => (not_mem_nil hb).elim,
      fun b hb => (not_mem_nil hb).elim⟩
  have hstart : Agreed params rootID rootHeight status ts₀ [] ts₀ :=
    ⟨rfl, hparams, hline, _, shape_init hinit, tailed_init hinit, ledger_init hinit,
      fun b hb => (not_mem_nil hb.mem_added).elim⟩
  have hstep : ∀ hist op rest ts, ops = hist ++ op :: rest →
      Agreed params rootID rootHeight status ts₀ hist ts → ∃ ts', ts.step op = some ts' ∧
          Agreed params rootID rootHeight status ts₀ (hist ++ [op]) ts' := by
    intro hist op rest ts hsplit hagreed
    have hop := Allowed.of_append (hsplit ▸ hops)
    cases op with
    | add blk => exact ⟨_, rfl, hagreed.add hop⟩
    | recordPoll pops order votes => exact hagreed.recordPoll hvalid pops order hop
  obtain ⟨ts, hrun, -, -, -, T, hshape, -, hledger, hout⟩ := foldlM_history hstart hstep
  have hmem : ∀ id, id ∈ ts.blocks ↔ id ∈ T.nodes := fun id => by
    rw [hshape.nodes_eq, Finmap.mem_keys]
  refine ⟨ts, hrun, hledger.chain, hledger.nodup, fun id => ?_, fun b hb hblocks hacc => ?_,
    fun b hb => (hmem b.id).not.mpr (hout b hb)⟩
  · rw [hmem]
    exact hledger.mem_nodes_iff hshape id
  rw [hmem] at hblocks
  rcases (hledger.accounted b hb).resolve_left hblocks with hdec | href
  · obtain ⟨d, hd, hid⟩ := mem_map.mp hdec
    cases d with
    | accept id =>
      have hid : Decision.accepted? (.accept id) = some b.id := congrArg some hid
      exact absurd (mem_filterMap.mpr ⟨_, hd, hid⟩) hacc
    | reject id =>
      obtain rfl : id = b.id := hid
      exact .inl hd
  · exact .inr href

end runs

/-- A child of the root that is accepted, and a sibling that comes after it. -/
def lateSibling : List Op :=
  [.add ⟨⟨1⟩, ⟨9⟩, 1⟩, .recordPoll .ids .ids (Bag.empty.add [⟨1⟩]), .add ⟨⟨2⟩, ⟨9⟩, 1⟩]

theorem allowed_lateSibling : Allowed .minimal ⟨9⟩ 0 (fun _ => .processing) [] lateSibling := by
  have hlen : ((Bag.empty.add [⟨1⟩]).len : Int) ≤ Parameters.minimal.k := by decide
  exact ⟨⟨by decide, by decide, rfl, .inl ⟨rfl, rfl⟩⟩, hlen,
    ⟨by decide, by decide, rfl, .inl ⟨rfl, rfl⟩⟩, trivial⟩

theorem observed_lateSibling :
    ((init .minimal ⟨9⟩ 0 fun _ => .processing).toOption.bind (·.run lateSibling)).map
      (fun ts => ((ts.blocks.lookup ⟨2⟩).isSome, ts.decidables.calls)) =
        some (false, [.accept ⟨1⟩]) := by
  decide +kernel

theorem agreement_run_lateSibling : ∃ ts₀ ts, init .minimal ⟨9⟩ 0 (fun _ => .processing) = .ok ts₀ ∧
      ts₀.run lateSibling = some ts ∧ ts.decidables.calls = [.accept ⟨1⟩] ∧
      (∀ id, id ∈ ts.blocks ↔ id = ts.head ∨ Descends (added lateSibling) ts.head id) ∧
      RefusedIn ts₀ lateSibling ⟨⟨2⟩, ⟨9⟩, 1⟩ := by
  obtain ⟨ts₀, ts, hinit, hrun, hobs⟩ := exists_run_of_observed observed_lateSibling
  obtain ⟨hblocks, hcalls⟩ := Prod.mk.inj hobs
  obtain ⟨ts', hrun', -, -, hiff, hrest, -⟩ := agreement_run hinit lateSibling allowed_lateSibling
  obtain rfl := some.inj (hrun.symm.trans hrun')
  refine ⟨ts₀, ts, hinit, hrun, hcalls, hiff, ?_⟩
  have hmem : (⟨2⟩ : ID) ∉ ts.blocks := by
    rw [← Finmap.lookup_isSome, hblocks]
    exact Bool.noConfusion
  have hacc : (⟨2⟩ : ID) ∉ ts.decidables.accepted := by
    rw [accepted, hcalls]
    decide
  refine (hrest ⟨⟨2⟩, ⟨9⟩, 1⟩ (by decide) hmem hacc).resolve_left ?_
  rw [hcalls]
  decide

/-- The sibling is neither in the tree nor decided. -/
theorem exists_refused_undecided : ∃ ts₀ ts, init .minimal ⟨9⟩ 0 (fun _ => .processing) = .ok ts₀ ∧
      Allowed .minimal ⟨9⟩ 0 (fun _ => .processing) [] lateSibling ∧
      ts₀.run lateSibling = some ts ∧
      ∃ b ∈ added lateSibling, b.id ∉ ts.blocks ∧ Decision.accept b.id ∉ ts.decidables.calls ∧
        Decision.reject b.id ∉ ts.decidables.calls := by
  obtain ⟨ts₀, ts, hinit, hrun, hobs⟩ := exists_run_of_observed observed_lateSibling
  obtain ⟨hblocks, hcalls⟩ := Prod.mk.inj hobs
  refine ⟨ts₀, ts, hinit, allowed_lateSibling, hrun, ⟨⟨2⟩, ⟨9⟩, 1⟩, by decide, ?_, ?_, ?_⟩
  · rw [← Finmap.lookup_isSome, hblocks]
    exact Bool.noConfusion
  · rw [hcalls]
    decide
  · rw [hcalls]
    decide

end Topological

end SavannahNode
