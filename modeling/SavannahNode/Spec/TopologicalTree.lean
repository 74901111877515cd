import SavannahNode.Native.Topological
import SavannahNode.ForStd.RootedTree
import SavannahNode.Spec.SnowballTreeInvariant

/-!
# The block tree

`Shape ts T` says that the blocks of `ts` are the tree `T` rooted at the last accepted
block: the `children` maps are the edges of `T`, every snowball instance was given exactly
the children of its block, and nothing but the root is decided.

## Key results

- `Topological.rejectTransitively_spec`: exactly the sub-trees on the stack are removed
- `Topological.acceptPreferredChild_spec`: the tree becomes the sub-tree of the new head
- `Topological.Shape.extend`: a new block is a new leaf
-/

namespace SavannahNode

open Finmap List Prod SavannahNode.RootedTree SnowmanBlock

namespace Decidables

/-- Call `Reject` on several objects. -/
def rejectAll (d : Decidables) (ids : List ID) : Decidables := ids.foldl reject d

theorem rejectAll_append (d : Decidables) (ids ids' : List ID) :
    d.rejectAll (ids ++ ids') = (d.rejectAll ids).rejectAll ids' := foldl_append

theorem calls_rejectAll (d : Decidables) (ids : List ID) :
    (d.rejectAll ids).calls = d.calls ++ ids.map .reject := by
  induction ids generalizing d with
  | nil => exact (append_nil _).symm
  | cons id ids ih =>
    show ((d.reject id).rejectAll ids).calls = _
    rw [ih]
    simp [reject]

theorem status_rejectAll (d : Decidables) (ids : List ID) (id : ID) :
    (d.rejectAll ids).status id = if id ∈ ids then .rejected else d.status id := by
  induction ids generalizing d with
  | nil => rfl
  | cons x ids ih =>
    show ((d.reject x).rejectAll ids).status id = _
    rw [ih]
    by_cases hid : id ∈ ids
    · simp [hid]
    · simp [hid, reject, Function.update_apply]

end Decidables

namespace SnowmanBlock

/-! ## Nodes -/

/-- The snowball instance went through a run that was given exactly the children. -/
def Sound (params : Parameters) (n : SnowmanBlock) : Prop :=
  match n.sb with
  | none => n.children = ∅
  | some sb => ∃ choice ops, sb = (Tree.init params choice).run ops ∧
      ∀ id, id ∈ n.children ↔ id ∈ Tree.given choice ops

variable {params : Parameters} {n : SnowmanBlock}

theorem sound_new (params : Parameters) (blk : Option Block) : (new blk).Sound params := rfl

theorem Sound.eq_empty (h : n.Sound params) (hsb : n.sb = none) : n.children = ∅ := by
  rw [Sound, hsb] at h
  exact h

variable {sb : Tree}

section

variable (h : n.Sound params)

include h

theorem Sound.exists_run (hsb : n.sb = some sb) :
    ∃ choice ops, sb = (Tree.init params choice).run ops ∧
      ∀ id, id ∈ n.children ↔ id ∈ Tree.given choice ops := by
  rw [Sound, hsb] at h
  exact h

/-- An operation that gives no new choice keeps the instance sound. -/
theorem Sound.step (hsb : n.sb = some sb) (op : Tree.Op) (hop : op.choice? = none)
    (shouldFalter : Bool) : Sound params { n with sb := some (sb.step op).1, shouldFalter } := by
  obtain ⟨choice, ops, rfl, hgiven⟩ := h.exists_run hsb
  refine ⟨choice, ops ++ [op], by simp [Tree.run], fun id => ?_⟩
  rw [Tree.mem_given_append, hop]
  simpa using hgiven id

/-- The preference of an instance is one of the children. -/
theorem Sound.preference_mem (hle : params.betaVirtuous ≤ params.betaRogue)
    (hsb : n.sb = some sb) : sb.preference ∈ n.children := by
  obtain ⟨choice, ops, rfl, hgiven⟩ := h.exists_run hsb
  have hinv := EagerTree.invariant_run hle choice ops
  rw [← Tree.eager_run_init] at hinv
  rw [hgiven, ← Tree.eager_preference]
  exact hinv.mem_given _ (Node.stores_preference hinv.isNil_eq)

theorem lookup_children_addChild (child : Block) (c : ID) :
    (n.addChild params child).children.lookup c =
      if c = child.id then some child else n.children.lookup c := by
  cases hsb : n.sb with
  | none =>
    rw [addChild, hsb, h.eq_empty hsb]
    exact lookup_insert_ite ..
  | some sb =>
    rw [addChild, hsb]
    exact lookup_insert_ite ..

theorem Sound.addChild (child : Block) : (n.addChild params child).Sound params := by
  cases hsb : n.sb with
  | none =>
    rw [SnowmanBlock.addChild, hsb]
    refine ⟨child.id, [], rfl, fun id => ?_⟩
    simp [mem_insert, Tree.given, notMem_empty]
  | some sb =>
    rw [SnowmanBlock.addChild, hsb]
    obtain ⟨choice, ops, rfl, hgiven⟩ := h.exists_run hsb
    refine ⟨choice, ops ++ [.add child.id], by simp [Tree.run, Tree.step], fun id => ?_⟩
    rw [Tree.mem_given_append, ← hgiven, mem_insert, or_comm]
    simp [Tree.Op.choice?, eq_comm]

end

@[simp] theorem blk_addChild (n : SnowmanBlock) (params : Parameters) (child : Block) :
    (n.addChild params child).blk = n.blk := by
  rw [addChild]
  split <;> rfl

theorem map_fst_rangeChildren (n : SnowmanBlock) (order : RangeOrder ID) :
    (n.rangeChildren order).map fst = order.list n.children.keys := by
  have hall : ∀ id ∈ order.list n.children.keys, ∃ b, n.children.lookup id = some b :=
    fun id hid => (mem_keys_iff _ _).mp ((order.mem_list _ _).mp hid)
  rw [rangeChildren]
  generalize order.list n.children.keys = l at hall
  induction l with
  | nil => rfl
  | cons id l ih =>
    obtain ⟨b, hb⟩ := hall id mem_cons_self
    rw [filterMap_cons, hb]
    exact congrArg (id :: ·) (ih fun id hid => hall id (mem_cons_of_mem _ hid))

theorem mem_rangeChildren {order : RangeOrder ID} {c : ID} {b : Block} :
    (c, b) ∈ n.rangeChildren order ↔ n.children.lookup c = some b := by
  rw [rangeChildren, mem_filterMap]
  constructor
  · rintro ⟨id, -, h⟩
    obtain ⟨b', hb', heq⟩ := Option.map_eq_some_iff.mp h
    obtain ⟨rfl, rfl⟩ := Prod.mk.inj heq
    exact hb'
  intro h
  refine ⟨c, (order.mem_list _ _).mpr ((mem_keys_iff _ _).mpr ⟨b, h⟩), ?_⟩
  rw [h]
  rfl

end SnowmanBlock

namespace Topological

/-! ## Rejecting sub-trees -/

/-- The blocks a range over children rejects, when they are filed under their IDs. -/
theorem rejectBlocks_eq (ts : Topological) {rejected : List (ID × Block)}
    (h : ∀ child ∈ rejected, child.2.id = child.1) :
    ts.rejectBlocks rejected =
      { ts with decidables := ts.decidables.rejectAll (rejected.map fst) } := by
  have hmap : rejected.map fst = rejected.map fun child => child.2.id :=
    map_congr_left fun child hc => (h child hc).symm
  rw [rejectBlocks, Decidables.rejectAll, hmap, foldl_map]

/-- The node's children map holds its children in the tree, filed under their IDs. -/
def Filed (T : RootedTree ID) (id : ID) (n : SnowmanBlock) : Prop :=
  (∀ c, c ∈ n.children.keys ↔ T.IsChild id c) ∧ ∀ c b, n.children.lookup c = some b → b.id = c

variable {T : RootedTree ID} {params : Parameters} {rootID : ID} {rootHeight : Nat}
  {status : ID → Status} {ts : Topological}

/-- `rejectTransitively` removes exactly the sub-trees on the stack, and rejects what is in
    them below the stack, each block once. -/
theorem rejectTransitively_spec (order : RangeOrder ID) (fuel : Nat) (stack : List ID)
    (ts : Topological) (hanti : T.Antichain stack) (hstack : ∀ s ∈ stack, s ∈ T.nodes ∧ s ≠ T.root)
    (hfuel : (T.cone stack).card ≤ fuel)
    (hfiled : ∀ s ∈ T.cone stack, ∃ n, ts.blocks.lookup s = some n ∧ Filed T s n) :
    ∃ blocks rejected, rejectTransitively order fuel stack ts =
        some { ts with blocks, decidables := ts.decidables.rejectAll rejected } ∧
      (∀ id, blocks.lookup id = if id ∈ T.cone stack then none else ts.blocks.lookup id) ∧
      rejected.Nodup ∧ ∀ id, id ∈ rejected ↔ id ∈ T.cone stack ∧ id ∉ stack := by
  induction fuel generalizing stack ts with
  | zero =>
    cases stack with
    | nil => exact ⟨ts.blocks, [], rfl, by simp, nodup_nil, by simp⟩
    | cons s rest =>
      have hs := hstack s mem_cons_self
      have hmem : s ∈ T.cone (s :: rest) := mem_cone.mpr ⟨s, mem_cons_self, self_mem_path hs.1 hs.2⟩
      exact absurd (Finset.card_pos.mpr ⟨s, hmem⟩) (by omega)
  | succ fuel ih =>
    cases stack with
    | nil => exact ⟨ts.blocks, [], rfl, by simp, nodup_nil, by simp⟩
    | cons s rest =>
      obtain ⟨hsm, hsr⟩ := hstack s mem_cons_self
      have hmem : s ∈ T.cone (s :: rest) := mem_cone.mpr ⟨s, mem_cons_self, self_mem_path hsm hsr⟩
      obtain ⟨n, hn, hkeys, hids⟩ := hfiled s hmem
      -- the children in range order, and the stack they are pushed on
      have hfst := n.map_fst_rangeChildren order
      have hcs : ∀ c, c ∈ ((n.rangeChildren order).map fst).reverse ↔ T.IsChild s c := by
        intro c
        rw [mem_reverse, hfst, order.mem_list, hkeys]
      have hnodup : ((n.rangeChildren order).map fst).reverse.Nodup := by
        rw [nodup_reverse, hfst]
        exact order.nodup_list _
      have hcone := cone_expand hcs hanti hsm hsr
      have hanti' := antichain_expand hcs hanti hsm hsr hnodup
      have hcard := Finset.card_erase_of_mem hmem
      rw [← hcone] at hcard
      obtain ⟨blocks, rejected, hrun, hlookup, hrej, hrejmem⟩ := ih
        (((n.rangeChildren order).map fst).reverse ++ rest)
        { ts with
          blocks := ts.blocks.erase s
          decidables := ts.decidables.rejectAll ((n.rangeChildren order).map fst) }
        hanti'
        (by
          intro c hc
          rcases mem_append.mp hc with hc | hc
          · exact ⟨((hcs c).mp hc).1, ((hcs c).mp hc).2.1⟩
          · exact hstack c (mem_cons_of_mem _ hc))
        (by omega)
        (by
          intro c hc
          rw [hcone, Finset.mem_erase] at hc
          obtain ⟨m, hm, hfm⟩ := hfiled c hc.2
          exact ⟨m, (lookup_erase_ne hc.1).trans hm, hfm⟩)
      refine ⟨blocks, (n.rangeChildren order).map fst ++ rejected, ?_, ?_, ?_, ?_⟩
      · rw [rejectTransitively, hn, Decidables.rejectAll_append]
        simp only [Option.bind_eq_bind, Option.bind_some]
        rw [rejectBlocks_eq _ fun child hc =>
          hids child.1 child.2 (mem_rangeChildren.mp hc)]
        exact hrun
      · intro id
        rw [hlookup, hcone]
        by_cases hid : id = s
        · subst hid
          rw [if_neg (Finset.notMem_erase _ _), if_pos hmem]
          exact lookup_erase _ _
        by_cases hc : id ∈ T.cone (s :: rest)
        · rw [if_pos (Finset.mem_erase.mpr ⟨hid, hc⟩), if_pos hc]
        rw [if_neg fun h => hc (Finset.mem_of_mem_erase h), if_neg hc]
        exact lookup_erase_ne hid
      · -- what is rejected later is not on the new stack
        rw [nodup_append']
        refine ⟨nodup_reverse.mp hnodup, hrej, fun c hc hc' => ?_⟩
        exact ((hrejmem c).mp hc').2 (mem_append_left _ (mem_reverse.mpr hc))
      · intro id
        have hdisj : ∀ c, T.IsChild s c → c ∉ rest := by
          intro c hc hmem
          have := (pairwise_append.mp hanti').2.2 c ((hcs c).mpr hc) c hmem
          exact this.1 (self_mem_path hc.1 hc.2.1)
        have hchild : ∀ c, T.IsChild s c → c ∈ (T.cone (s :: rest)).erase s := by
          intro c hc
          rw [← hcone]
          exact mem_cone.mpr ⟨c, mem_append_left _ ((hcs c).mpr hc), self_mem_path hc.1 hc.2.1⟩
        have hcs' := hcs id
        rw [mem_reverse] at hcs'
        rw [mem_append, hrejmem, hcone, hcs', mem_append, hcs, Finset.mem_erase,
          mem_cons, not_or, not_or]
        constructor
        · rintro (hc | ⟨⟨hne, hmem⟩, -, hnot⟩)
          · have := Finset.mem_erase.mp (hchild id hc)
            exact ⟨this.2, this.1, hdisj id hc⟩
          · exact ⟨hmem, hne, hnot⟩
        rintro ⟨hmem, hne, hnot⟩
        by_cases hc : T.IsChild s id
        · exact .inl hc
        · exact .inr ⟨⟨hne, hmem⟩, hc, hnot⟩

/-! ## The shape of the state -/

/-- The blocks form the tree `T`. -/
structure Shape (ts : Topological) (T : RootedTree ID) : Prop where
  root_eq : T.root = ts.head
  nodes_eq : T.nodes = ts.blocks.keys
  blk_head : ∀ n, ts.blocks.lookup ts.head = some n → ∀ b, n.blk = some b →
    b.id = ts.head ∧ ts.decidables.status ts.head = .accepted
  blk : ∀ id n, ts.blocks.lookup id = some n → id ≠ ts.head →
    ∃ b, n.blk = some b ∧ b.id = id ∧ b.parent = T.parent id ∧
      (ts.decidables.status id).decided = false
  children : ∀ id n, ts.blocks.lookup id = some n → ∀ c b, n.children.lookup c = some b ↔
      T.IsChild id c ∧ ∃ m, ts.blocks.lookup c = some m ∧ m.blk = some b
  sound : ∀ id n, ts.blocks.lookup id = some n → n.Sound ts.params

namespace Shape

variable {ts : Topological} {T : RootedTree ID} (h : Shape ts T)
include h

variable {id : ID}

theorem mem_iff : id ∈ T.nodes ↔ ∃ n, ts.blocks.lookup id = some n := by
  rw [h.nodes_eq, mem_keys_iff]

theorem filed {n : SnowmanBlock} (hn : ts.blocks.lookup id = some n) : Filed T id n := by
  refine ⟨fun c => ?_, fun c b hb => ?_⟩
  · rw [mem_keys_iff]
    constructor
    · rintro ⟨b, hb⟩
      exact ((h.children id n hn c b).mp hb).1
    intro hc
    obtain ⟨m, hm⟩ := h.mem_iff.mp hc.1
    obtain ⟨b, hb, -⟩ := h.blk c m hm (h.root_eq ▸ hc.2.1)
    exact ⟨b, (h.children id n hn c b).mpr ⟨hc, m, hm, hb⟩⟩
  obtain ⟨hc, m, hm, hmb⟩ := (h.children id n hn c b).mp hb
  obtain ⟨b', hb', hid, -⟩ := h.blk c m hm (h.root_eq ▸ hc.2.1)
  rw [hmb] at hb'
  exact Option.some.inj hb' ▸ hid

/-- Only the head is accepted. -/
theorem accepted_iff {n : SnowmanBlock} (hn : ts.blocks.lookup id = some n) :
    n.accepted ts.decidables = true ↔ id = ts.head := by
  constructor
  · intro hacc
    by_contra hne
    obtain ⟨b, hb, hid, -, hst⟩ := h.blk id n hn hne
    rw [accepted, hb] at hacc
    simp only [hid, decide_eq_true_eq] at hacc
    rw [hacc] at hst
    cases hst
  rintro rfl
  rw [accepted]
  cases hb : n.blk with
  | none => rfl
  | some b =>
    obtain ⟨hid, hst⟩ := h.blk_head n hn b hb
    exact decide_eq_true ((congrArg _ hid).trans hst)

/-- Changing nodes in place, without touching their blocks or children, keeps the shape. -/
theorem mapNodes {ts' : Topological} (hparams : ts'.params = ts.params) (hhead : ts'.head = ts.head)
    (hdec : ts'.decidables = ts.decidables) {g : ID → SnowmanBlock → SnowmanBlock}
    (hlookup : ∀ id, ts'.blocks.lookup id = (ts.blocks.lookup id).map (g id))
    (hg : ∀ id n, ts.blocks.lookup id = some n →
      (g id n).blk = n.blk ∧ (g id n).children = n.children ∧ (g id n).Sound ts.params) :
    Shape ts' T := by
  have hsome : ∀ {id n'}, ts'.blocks.lookup id = some n' →
      ∃ n, ts.blocks.lookup id = some n ∧ n' = g id n := by
    intro id n' hn'
    rw [hlookup] at hn'
    obtain ⟨n, hn, heq⟩ := Option.map_eq_some_iff.mp hn'
    exact ⟨n, hn, heq.symm⟩
  refine ⟨h.root_eq.trans hhead.symm, ?_, ?_, ?_, ?_, ?_⟩
  · ext id
    rw [h.mem_iff, mem_keys_iff, hlookup]
    cases ts.blocks.lookup id <;> simp
  · intro n' hn' b hb
    obtain ⟨n, hn, rfl⟩ := hsome hn'
    rw [hhead] at hn hb ⊢
    rw [hdec]
    exact h.blk_head n hn b ((hg _ n hn).1 ▸ hb)
  · intro id n' hn' hne
    obtain ⟨n, hn, rfl⟩ := hsome hn'
    rw [(hg id n hn).1, hdec]
    exact h.blk id n hn (hhead ▸ hne)
  · intro id n' hn' c b
    obtain ⟨n, hn, rfl⟩ := hsome hn'
    rw [(hg id n hn).2.1, h.children id n hn]
    refine and_congr_right fun _ => ⟨?_, ?_⟩
    · rintro ⟨m, hm, hmb⟩
      exact ⟨g c m, by rw [hlookup, hm]; rfl, (hg c m hm).1.trans hmb⟩
    rintro ⟨m', hm', hmb⟩
    obtain ⟨m, hm, rfl⟩ := hsome hm'
    exact ⟨m, hm, (hg c m hm).1.symm.trans hmb⟩
  · intro id n' hn'
    obtain ⟨n, hn, rfl⟩ := hsome hn'
    rw [hparams]
    exact (hg id n hn).2.2

end Shape

/-- A started instance is just its root. -/
theorem shape_init (hinit : init params rootID rootHeight status = .ok ts) :
    Shape ts (.single rootID) := by
  rw [init] at hinit
  split at hinit
  · cases hinit
  obtain rfl := Except.ok.inj hinit
  have hlookup : ∀ {id n}, ((∅ : IDMap SnowmanBlock).insert rootID (.new none)).lookup id = some n →
      id = rootID ∧ n = .new none := by
    intro id n hn
    rw [lookup_insert_ite] at hn
    split at hn
    · exact ⟨‹_›, (Option.some.inj hn).symm⟩
    · cases hn
  refine ⟨rfl, ?_, ?_, ?_, ?_, ?_⟩
  · rfl
  · intro n hn b hb
    obtain ⟨-, rfl⟩ := hlookup hn
    cases hb
  · intro id n hn hne
    exact absurd (hlookup hn).1 hne
  · intro id n hn c b
    obtain ⟨-, rfl⟩ := hlookup hn
    refine ⟨(fun h => by cases h), fun hc => ?_⟩
    exact absurd (Finset.mem_singleton.mp hc.1.1) hc.1.2.1
  intro id n hn
  obtain ⟨-, rfl⟩ := hlookup hn
  exact sound_new _ _

/-! ## Adding a block -/

section

variable (ts : Topological) (parentNode : SnowmanBlock) (blk : Block)

/-- The state after a block was added under its parent. -/
def extend : Topological :=
  { ts with
    blocks := (ts.blocks.insert blk.parent (parentNode.addChild ts.params blk)).insert
      blk.id (.new (some blk))
    tail := if ts.tail = blk.parent then blk.id else ts.tail
    preferredIDs := if ts.tail = blk.parent then insert blk.id ts.preferredIDs
      else ts.preferredIDs }

theorem lookup_extend (id : ID) :
    (ts.extend parentNode blk).blocks.lookup id = if id = blk.id then some (.new (some blk))
      else if id = blk.parent then some (parentNode.addChild ts.params blk)
      else ts.blocks.lookup id := by
  rw [extend, lookup_insert_ite, lookup_insert_ite]

/-- What `Add` does: refuse the block, reject it, or add it under its parent. -/
theorem add_cases :
    ((ts.decided blk = true ∨ ts.processing blk.id = true) ∧
      ts.add blk = (ts, some .errDuplicateAdd)) ∨
    (ts.decided blk = false ∧ ts.processing blk.id = false ∧ ts.blocks.lookup blk.parent = none ∧
      ts.add blk = ({ ts with decidables := ts.decidables.reject blk.id }, none)) ∨
    (ts.decided blk = false ∧ ts.processing blk.id = false ∧
      ∃ parentNode, ts.blocks.lookup blk.parent = some parentNode ∧
        ts.add blk = (ts.extend parentNode blk, none)) := by
  by_cases hdup : (ts.decided blk || ts.processing blk.id) = true
  · exact .inl ⟨Bool.or_eq_true_iff.mp hdup, if_pos hdup⟩
  have hfresh := Bool.or_eq_false_iff.mp (Bool.eq_false_iff.mpr hdup)
  rw [add, if_neg hdup]
  cases hp : ts.blocks.lookup blk.parent with
  | none => exact .inr (.inl ⟨hfresh.1, hfresh.2, rfl, rfl⟩)
  | some parentNode =>
    refine .inr (.inr ⟨hfresh.1, hfresh.2, parentNode, rfl, ?_⟩)
    dsimp only
    rw [extend]
    split <;> rfl

@[simp] theorem params_add : (ts.add blk).1.params = ts.params := by
  rcases ts.add_cases blk with ⟨-, hadd⟩ | ⟨-, -, -, hadd⟩ | ⟨-, -, parentNode, -, hadd⟩ <;>
    exact congrArg (fun r => r.1.params) hadd

end

namespace Shape

variable {ts : Topological} {T : RootedTree ID} (h : Shape ts T)
include h

/-- A block other than the head that `Add` does not refuse is not in the tree, and
    undecided. -/
theorem fresh {blk : Block} (hdec : ts.decided blk = false) (hproc : ts.processing blk.id = false)
    (hne : blk.id ≠ ts.head) :
    blk.id ∉ T.nodes ∧ (ts.decidables.status blk.id).decided = false := by
  have hst := (Bool.or_eq_false_iff.mp hdec).1
  refine ⟨fun hmem => ?_, hst⟩
  obtain ⟨n, hn⟩ := h.mem_iff.mp hmem
  rw [processing, if_neg hne, hn] at hproc
  cases hproc

/-- Deciding an object outside the tree keeps the shape. -/
theorem reject {id : ID} (hid : id ∉ T.nodes) :
    Shape { ts with decidables := ts.decidables.reject id } T := by
  have hst : ∀ x ∈ T.nodes, (ts.decidables.reject id).status x = ts.decidables.status x :=
    fun x hx => Function.update_of_ne (fun heq : x = id => hid (heq ▸ hx)) ..
  refine { h with blk_head := fun n hn b hb => ?_, blk := fun x n hn hne => ?_ }
  · obtain ⟨hid, hacc⟩ := h.blk_head n hn b hb
    exact ⟨hid, (hst _ (h.root_eq ▸ T.root_mem)).trans hacc⟩
  · rw [hst x (h.mem_iff.mpr ⟨n, hn⟩)]
    exact h.blk x n hn hne

/-- A new block is a new leaf. -/
theorem extend {blk : Block} (hid : blk.id ∉ T.nodes) (hp : blk.parent ∈ T.nodes)
    (hst : (ts.decidables.status blk.id).decided = false) {parentNode : SnowmanBlock}
    (hn : ts.blocks.lookup blk.parent = some parentNode) :
    Shape (ts.extend parentNode blk) (T.addLeaf blk.id blk.parent hid hp) := by
  have hlookup := ts.lookup_extend parentNode blk
  -- every old node is still there, with the same block
  have hold : ∀ id ∈ T.nodes, ∀ m', (ts.extend parentNode blk).blocks.lookup id = some m' →
      ∃ m, ts.blocks.lookup id = some m ∧ m'.blk = m.blk ∧ m'.Sound ts.params ∧
        ∀ c, m'.children.lookup c = if id = blk.parent ∧ c = blk.id then some blk
          else m.children.lookup c := by
    intro id hmem m' hm'
    have hidne : id ≠ blk.id := fun heq => hid (heq ▸ hmem)
    rw [hlookup, if_neg hidne] at hm'
    by_cases hidp : id = blk.parent
    · rw [if_pos hidp] at hm'
      obtain rfl := Option.some.inj hm'
      have hsound := h.sound _ _ hn
      refine ⟨parentNode, hidp ▸ hn, blk_addChild .., hsound.addChild blk, fun c => ?_⟩
      rw [lookup_children_addChild hsound]
      simp only [hidp, true_and]
    rw [if_neg hidp] at hm'
    exact ⟨m', hm', rfl, h.sound _ _ hm', fun c => by simp only [hidp, false_and, if_false]⟩
  have hnew : ∀ id ∈ T.nodes, ∀ m, ts.blocks.lookup id = some m →
      ∃ m', (ts.extend parentNode blk).blocks.lookup id = some m' ∧ m'.blk = m.blk := by
    intro id hmem m hm
    have hidne : id ≠ blk.id := fun heq => hid (heq ▸ hmem)
    rw [hlookup, if_neg hidne]
    by_cases hidp : id = blk.parent
    · rw [if_pos hidp]
      rw [hidp, hn] at hm
      exact ⟨_, rfl, (blk_addChild ..).trans (congrArg _ (Option.some.inj hm))⟩
    rw [if_neg hidp]
    exact ⟨m, hm, rfl⟩
  have hmem_old : ∀ id m', (ts.extend parentNode blk).blocks.lookup id = some m' → id ≠ blk.id →
      id ∈ T.nodes := by
    intro id m' hm' hidb
    rw [hlookup, if_neg hidb] at hm'
    split at hm'
    · rename_i hidp
      exact hidp ▸ hp
    · exact h.mem_iff.mpr ⟨m', hm'⟩
  have hheadmem : ts.head ∈ T.nodes := h.root_eq ▸ T.root_mem
  have hself : (ts.extend parentNode blk).blocks.lookup blk.id = some (.new (some blk)) := by
    rw [hlookup, if_pos rfl]
  refine ⟨h.root_eq, ?_, ?_, ?_, ?_, ?_⟩
  · rw [nodes_addLeaf, Topological.extend, keys_insert, keys_insert,
      ← h.nodes_eq, Finset.insert_eq_of_mem hp]
  · intro m' hm' b hb
    obtain ⟨m, hm, hblk, -⟩ := hold _ hheadmem m' hm'
    exact h.blk_head m hm b (hblk ▸ hb)
  · intro id m' hm' hidne
    by_cases hidb : id = blk.id
    · subst hidb
      rw [hself] at hm'
      obtain rfl := Option.some.inj hm'
      exact ⟨blk, rfl, rfl, (parent_addLeaf_self hid hp).symm, hst⟩
    have hmem := hmem_old id m' hm' hidb
    obtain ⟨m, hm, hblk, -⟩ := hold id hmem m' hm'
    rw [hblk, parent_addLeaf_of_mem hid hp hmem]
    exact h.blk id m hm hidne
  · intro id m' hm' c b
    by_cases hidb : id = blk.id
    · -- the new leaf has no children
      subst hidb
      rw [hself] at hm'
      obtain rfl := Option.some.inj hm'
      refine ⟨(fun h => by cases h), fun hc => ?_⟩
      exact absurd hc.1 (not_isChild_addLeaf hid hp)
    have hmem := hmem_old id m' hm' hidb
    obtain ⟨m, hm, -, -, hchildren⟩ := hold id hmem m' hm'
    rw [hchildren]
    by_cases hc : c = blk.id
    · subst hc
      rw [isChild_addLeaf_self hid hp, hself]
      by_cases hidp : id = blk.parent
      · simp [hidp, new]
      rw [if_neg fun hh => hidp hh.1]
      refine ⟨fun hh => ?_, fun hh => absurd hh.1.symm hidp⟩
      exact absurd ((h.children id m hm _ b).mp hh).1.1 hid
    rw [if_neg fun hh => hc hh.2, h.children id m hm, isChild_addLeaf_of_ne hid hp hc]
    refine and_congr_right fun hchild => ⟨?_, ?_⟩
    · rintro ⟨k, hk, hkb⟩
      obtain ⟨k', hk', hblk⟩ := hnew c hchild.1 k hk
      exact ⟨k', hk', hblk.trans hkb⟩
    rintro ⟨k', hk', hkb⟩
    obtain ⟨k, hk, hblk, -⟩ := hold c hchild.1 k' hk'
    exact ⟨k, hk, hblk.symm.trans hkb⟩
  · intro id m' hm'
    by_cases hidb : id = blk.id
    · subst hidb
      rw [hself] at hm'
      obtain rfl := Option.some.inj hm'
      exact sound_new _ _
    obtain ⟨m, -, -, hsound, -⟩ := hold id (hmem_old id m' hm' hidb) m' hm'
    exact hsound

end Shape

/-! ## Accepting a child of the head -/

/-- The state after the child `pref` of the head was accepted. -/
def acceptChild (ts : Topological) (pref : ID) (height : Nat) (blocks : IDMap SnowmanBlock)
    (rejected : List ID) : Topological :=
  { ts with
    blocks
    decidables := (ts.decidables.accept pref).rejectAll rejected
    head := pref
    height
    preferredIDs := ts.preferredIDs.erase pref }

/-- `acceptPreferredChild` accepts the preferred child of the head, and rejects and removes
    everything outside its sub-tree but the old head, each block once. -/
theorem acceptPreferredChild_spec (h : Shape ts T)
    (hle : ts.params.betaVirtuous ≤ ts.params.betaRogue) (order : RangeOrder ID) {n : SnowmanBlock}
    {sb : Tree} (hn : ts.blocks.lookup ts.head = some n) (hsb : n.sb = some sb) :
    T.IsChild T.root sb.preference ∧ ∃ child blocks rejected,
      n.children.lookup sb.preference = some child ∧
      ts.acceptPreferredChild order n =
        some (ts.acceptChild sb.preference child.height blocks rejected) ∧
      (∀ id, blocks.lookup id =
        if id = ts.head ∨ sb.preference ∈ T.path id then ts.blocks.lookup id else none) ∧
      rejected.Nodup ∧
      ∀ id, id ∈ rejected ↔ id ∈ T.nodes ∧ id ≠ T.root ∧ sb.preference ∉ T.path id := by
  obtain ⟨hkeys, hids⟩ := h.filed hn
  have hpref := (h.sound _ _ hn).preference_mem hle hsb
  have hchild : T.IsChild T.root sb.preference := by
    rw [h.root_eq]
    exact (hkeys _).mp (mem_keys.mpr hpref)
  obtain ⟨child, hlookup⟩ := mem_iff.mp hpref
  refine ⟨hchild, ?_⟩
  set rejects := (n.rangeChildren order).filter fun c => decide (c.1 ≠ sb.preference) with hrejects
  -- the siblings of the accepted child, in range order
  have hrs : ∀ c, c ∈ (rejects.map fst).reverse ↔ T.IsChild T.root c ∧ c ≠ sb.preference := by
    intro c
    rw [h.root_eq, ← hkeys, mem_keys_iff, mem_reverse, mem_map]
    constructor
    · rintro ⟨⟨c, b⟩, hc, rfl⟩
      obtain ⟨hmem, hne⟩ := mem_filter.mp hc
      exact ⟨⟨b, mem_rangeChildren.mp hmem⟩, of_decide_eq_true hne⟩
    · rintro ⟨⟨b, hb⟩, hne⟩
      exact ⟨(c, b), mem_filter.mpr ⟨mem_rangeChildren.mpr hb, decide_eq_true hne⟩, rfl⟩
  have hnodup : (rejects.map fst).Nodup := by
    have hall : ((n.rangeChildren order).map fst).Nodup := by
      rw [n.map_fst_rangeChildren order]
      exact order.nodup_list _
    exact hall.sublist (filter_sublist.map _)
  have hanti : T.Antichain (rejects.map fst).reverse :=
    antichain_children (nodup_reverse.mpr hnodup) fun c hc => ((hrs c).mp hc).1
  have hcone : ∀ id, id ∈ T.cone (rejects.map fst).reverse ↔
      id ∈ T.nodes ∧ id ≠ T.root ∧ sb.preference ∉ T.path id :=
    fun id => mem_cone_siblings hchild hrs
  obtain ⟨blocks, rejected, hrun, hblocks, hrej, hrejmem⟩ := rejectTransitively_spec order
    ts.blocks.keys.card (rejects.map fst).reverse
    { ts with
      decidables := (ts.decidables.accept sb.preference).rejectAll (rejects.map fst)
      head := sb.preference
      height := child.height
      preferredIDs := ts.preferredIDs.erase sb.preference }
    hanti
    (fun s hs => ⟨((hrs s).mp hs).1.1, ((hrs s).mp hs).1.2.1⟩)
    (by rw [← h.nodes_eq]; exact Finset.card_le_card (Finset.filter_subset _ _))
    (fun s hs => by
      obtain ⟨m, hm⟩ := h.mem_iff.mp ((hcone s).mp hs).1
      exact ⟨m, hm, h.filed hm⟩)
  refine ⟨child, blocks, rejects.map fst ++ rejected, hlookup, ?_, ?_, ?_, ?_⟩
  · rw [acceptPreferredChild, hsb]
    simp only [Option.bind_eq_bind, Option.bind_some]
    rw [hlookup]
    simp only [Option.bind_some]
    rw [← hrejects, rejectBlocks_eq _ fun c hc =>
      hids c.1 c.2 (mem_rangeChildren.mp (mem_filter.mp hc).1),
      hids _ _ hlookup, acceptChild, Decidables.rejectAll_append]
    exact hrun
  · intro id
    rw [hblocks]
    by_cases hc : id ∈ T.cone (rejects.map fst).reverse
    · obtain ⟨-, hne, hnot⟩ := (hcone id).mp hc
      rw [if_pos hc, if_neg (not_or.mpr ⟨h.root_eq ▸ hne, hnot⟩)]
    rw [if_neg hc]
    split
    · rfl
    rename_i hnot
    obtain ⟨hne, hnot⟩ := not_or.mp hnot
    rw [hcone, h.root_eq] at hc
    -- neither the head nor in the sub-tree nor a sibling's: not in the tree
    by_contra hsome
    exact hc ⟨h.mem_iff.mpr (Option.ne_none_iff_exists'.mp hsome), hne, hnot⟩
  · rw [nodup_append']
    refine ⟨hnodup, hrej, fun c hc hc' => ?_⟩
    exact ((hrejmem c).mp hc').2 (mem_reverse.mpr hc)
  · intro id
    rw [mem_append, hrejmem, ← hcone]
    constructor
    · rintro (hc | hc)
      · have hs := (hrs id).mp (mem_reverse.mpr hc)
        exact mem_cone.mpr ⟨id, mem_reverse.mpr hc, self_mem_path hs.1.1 hs.1.2.1⟩
      · exact hc.1
    intro hc
    by_cases hmem : id ∈ (rejects.map fst).reverse
    · exact .inl (mem_reverse.mp hmem)
    · exact .inr ⟨hc, hmem⟩

/-- Without the old head, what is left is the sub-tree of the accepted child. -/
theorem Shape.acceptChild (h : Shape ts T) {pref : ID} (hpref : T.IsChild T.root pref)
    (height : Nat) {blocks : IDMap SnowmanBlock} {rejected : List ID}
    (hblocks : ∀ id, blocks.lookup id =
      if id = ts.head ∨ pref ∈ T.path id then ts.blocks.lookup id else none)
    (hrej : ∀ id, id ∈ rejected ↔ id ∈ T.nodes ∧ id ≠ T.root ∧ pref ∉ T.path id) :
    Shape { ts.acceptChild pref height blocks rejected with blocks := blocks.erase ts.head }
      (T.subtree pref hpref.1 hpref.2.1) := by
  have hself := self_mem_path hpref.1 hpref.2.1
  have hlookup : ∀ id, (blocks.erase ts.head).lookup id =
      if pref ∈ T.path id then ts.blocks.lookup id else none := by
    intro id
    rw [lookup_erase_ite, hblocks]
    by_cases hid : id = ts.head
    · have hnot : pref ∉ T.path id := by
        rw [hid, ← h.root_eq, T.path_root]
        exact not_mem_nil
      rw [if_pos hid, if_neg hnot]
    rw [if_neg hid]
    simp only [hid, false_or]
  have hsome : ∀ {id n}, (blocks.erase ts.head).lookup id = some n →
      pref ∈ T.path id ∧ ts.blocks.lookup id = some n := by
    intro id n hn
    rw [hlookup] at hn
    split at hn
    · exact ⟨‹_›, hn⟩
    · cases hn
  -- nothing of the sub-tree is rejected
  have hstatus : ∀ id, pref ∈ T.path id → id ≠ pref →
      ((ts.decidables.accept pref).rejectAll rejected).status id = ts.decidables.status id := by
    intro id hid hne
    rw [Decidables.status_rejectAll, if_neg fun hmem => ((hrej id).mp hmem).2.2 hid]
    exact Function.update_of_ne hne ..
  refine ⟨rfl, ?_, ?_, ?_, ?_, ?_⟩
  · ext id
    rw [mem_subtree, mem_keys_iff]
    constructor
    · intro hid
      obtain ⟨n, hn⟩ := h.mem_iff.mp (of_mem_path hid).1
      exact ⟨n, by rw [hlookup, if_pos hid, hn]⟩
    · rintro ⟨n, hn⟩
      exact (hsome hn).1
  · intro n hn b hb
    obtain ⟨-, hn⟩ := hsome hn
    obtain ⟨b', hb', hid, -⟩ := h.blk pref n hn (h.root_eq ▸ hpref.2.1)
    rw [hb] at hb'
    refine ⟨Option.some.inj hb' ▸ hid, ?_⟩
    show ((ts.decidables.accept pref).rejectAll rejected).status pref = _
    rw [Decidables.status_rejectAll, if_neg fun hmem => ((hrej pref).mp hmem).2.2 hself]
    exact Function.update_self ..
  · intro id n hn hne
    obtain ⟨hpath, hn⟩ := hsome hn
    obtain ⟨b, hb, hid, hparent, hst⟩ := h.blk id n hn (h.root_eq ▸ (of_mem_path hpath).2)
    exact ⟨b, hb, hid, hparent, (congrArg Status.decided (hstatus id hpath hne)).trans hst⟩
  · intro id n hn c b
    obtain ⟨hpath, hn⟩ := hsome hn
    rw [h.children id n hn, isChild_subtree hpref.1 hpref.2.1 hpath]
    refine and_congr_right fun hchild => ?_
    have hc : pref ∈ T.path c := mem_path_of_parent hchild.1 hchild.2.1 (hchild.2.2 ▸ hpath)
    rw [hlookup, if_pos hc]
  · intro id n hn
    exact h.sound id n (hsome hn).2

/-! ## Runs -/

theorem run_concat {ts0 ts' : Topological} {ops : List Op} {op : Op} (hrun : ts0.run ops = some ts)
    (hstep : ts.step op = some ts') : ts0.run (ops ++ [op]) = some ts' := by
  rw [run] at hrun
  rw [run, foldlM_append, hrun]
  simpa using hstep

theorem verify_of_init (hinit : init params rootID rootHeight status = .ok ts) :
    params.verify = none ∧ ts.params = params := by
  rw [init] at hinit
  split at hinit
  · cases hinit
  rename_i hverify
  obtain rfl := Except.ok.inj hinit
  exact ⟨hverify, rfl⟩

/-- A run from `Initialize` on, by what can be evaluated of its last state. -/
theorem exists_run_of_observed {β : Type} {ops : List Op} {f : Topological → β} {y : β}
    (h : ((init params rootID rootHeight status).toOption.bind (·.run ops)).map f = some y) :
    ∃ ts0 ts, init params rootID rootHeight status = .ok ts0 ∧ ts0.run ops = some ts ∧ f ts = y := by
  obtain ⟨ts, hts, hf⟩ := Option.map_eq_some_iff.mp h
  obtain ⟨ts0, hinit, hrun⟩ := Option.bind_eq_some_iff.mp hts
  refine ⟨ts0, ts, ?_, hrun, hf⟩
  cases hok : init params rootID rootHeight status with
  | error err =>
    rw [hok] at hinit
    cases hinit
  | ok ts1 =>
    rw [hok] at hinit
    exact congrArg _ (Option.some.inj hinit)

end Topological

end SavannahNode
