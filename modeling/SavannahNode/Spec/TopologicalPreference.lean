import SavannahNode.Spec.TopologicalAgreement

/-!
# The preferred branch

`RecordPoll` updates the preferred IDs and the tail only if the block returned by `vote` was
not preferred before. That is right as long as the votes are applied from the head on: then
the preferences above the returned block lead to it, and those below it have not changed.
The stack of a poll starts at the head when no block is counted twice. Otherwise an ancestor
is never popped, votes are applied in the middle of the tree, and the tail may be a block
that the head does not lead to.

## Key results

- `Topological.Tracking.step`: what the loop of `vote` keeps of the preferred branch
- `Topological.preferred_run`: the tail is where following the preferences from the head ends
-/

namespace SavannahNode

open List SavannahNode.RootedTree SnowmanBlock

theorem Tree.preference_add (t : Tree) (choice : ID) : (t.add choice).preference = t.preference := by
  rw [Tree.add]
  split
  · exact Node.preference_add ..
  · rfl

namespace Topological

variable {ts ts' : Topological} {T T' : RootedTree ID}

/-! ## Following preferences -/

/-- The instance of `p` prefers `c`. -/
def Prefers (ts : Topological) (p c : ID) : Prop :=
  ∃ n sb, ts.blocks.lookup p = some n ∧ n.sb = some sb ∧ sb.preference = c

/-- The preferences lead from the head to the block. -/
def Leads (ts : Topological) (T : RootedTree ID) (id : ID) : Prop :=
  ∀ c ∈ T.path id, Prefers ts (T.parent c) c

variable {id p rootID : ID} {l path : List ID} {votes : Bag} {params : Parameters}

theorem Follows.of_blocks (hl : Follows ts id l) (ts' : Topological) (h : ts'.blocks = ts.blocks) :
    Follows ts' id l := by
  induction l generalizing id with
  | nil =>
    rw [Follows, h]
    exact hl
  | cons c l ih =>
    rw [Follows, h]
    exact ⟨hl.1, ih hl.2⟩

/-- A branch followed from a block that the preferences lead to is followed from the head. -/
theorem Leads.follows : ∀ id ∈ T.nodes, Leads ts T id → ∀ l, Follows ts id l →
    ∃ path, Follows ts T.root path ∧ path.getLastD T.root = l.getLastD id := by
  refine T.induction ?_ ?_
  · intro _ l hl
    exact ⟨l, hl, rfl⟩
  intro id hid hr ih hleads l hl
  have hpath := T.path_cons hid hr
  have hprefers := hleads id (hpath ▸ mem_cons_self)
  obtain ⟨path, hfollows, hlast⟩ :=
    ih (fun c hc => hleads c (hpath ▸ mem_cons_of_mem _ hc)) (id :: l) ⟨hprefers, hl⟩
  exact ⟨path, hfollows, hlast.trans (getLastD_cons ..)⟩

/-- The preferences lead to where following them ends. -/
theorem Follows.leads (h : Shape ts T) (hle : ts.params.betaVirtuous ≤ ts.params.betaRogue)
    (hl : Follows ts id l) (hleads : Leads ts T id) :
    Leads ts T (l.getLastD id) ∧ Follows ts (l.getLastD id) [] := by
  induction l generalizing id with
  | nil => exact ⟨hleads, hl⟩
  | cons c l ih =>
    rw [getLastD_cons]
    refine ih hl.2 fun d hd => ?_
    obtain ⟨⟨n, sb, hn, hsb, rfl⟩, -⟩ := hl
    have hc := h.isChild_preference hle hn hsb
    rw [T.path_cons hc.1 hc.2.1, hc.2.2] at hd
    rcases mem_cons.mp hd with rfl | hd
    · rw [hc.2.2]
      exact ⟨n, sb, hn, hsb, rfl⟩
    · exact hleads d hd

/-- From a block on the branch, the rest of the branch is followed. -/
theorem Follows.from {a : ID} (h : Follows ts a path) (hid : id ∈ path) :
    ∃ l, Follows ts id l ∧ path.getLastD a = l.getLastD id := by
  induction path generalizing a with
  | nil => cases hid
  | cons c path ih =>
    rw [getLastD_cons]
    rcases mem_cons.mp hid with rfl | hid
    · exact ⟨path, h.2, rfl⟩
    · exact ih h.2 hid

/-- The instances are the same. -/
def SameSb (ts ts' : Topological) (id : ID) : Prop :=
  (ts'.blocks.lookup id).map sb = (ts.blocks.lookup id).map sb

theorem SameSb.lookup (h : SameSb ts ts' id) {n : SnowmanBlock} (hn : ts.blocks.lookup id = some n) :
    ∃ n', ts'.blocks.lookup id = some n' ∧ n'.sb = n.sb := by
  rw [SameSb, hn] at h
  exact Option.map_eq_some_iff.mp h

theorem SameSb.prefers {c : ID} (h : SameSb ts ts' p) (hprefers : Prefers ts p c) :
    Prefers ts' p c := by
  obtain ⟨n, sb, hn, hsb, hpref⟩ := hprefers
  obtain ⟨n', hn', hsb'⟩ := h.lookup hn
  exact ⟨n', sb, hn', hsb'.trans hsb, hpref⟩

/-- A branch depends only on the instances from its start down. -/
theorem Follows.congr (h : Shape ts' T') (hle : ts'.params.betaVirtuous ≤ ts'.params.betaRogue)
    (hl : Follows ts id l) (hsame : ∀ x, x = id ∨ T'.Below id x → SameSb ts ts' x) :
    Follows ts' id l := by
  induction l generalizing id with
  | nil =>
    obtain ⟨n, hn, hsb⟩ := hl
    obtain ⟨n', hn', hsb'⟩ := (hsame id (.inl rfl)).lookup hn
    exact ⟨n', hn', hsb'.trans hsb⟩
  | cons c l ih =>
    have hprefers : Prefers ts' id c := (hsame id (.inl rfl)).prefers hl.1
    refine ⟨hprefers, ih hl.2 fun x hx => hsame x (.inr ?_)⟩
    obtain ⟨n', sb, hn', hsb, rfl⟩ := hprefers
    have hchild := h.isChild_preference hle hn' hsb
    rcases hx with rfl | hx
    · exact hchild.below
    · exact hchild.below.trans hx

/-! ## The loop -/

/-- Neither block is at or below the other one. -/
def Apart (T : RootedTree ID) (p id : ID) : Prop := p ≠ id ∧ ¬ T.Below p id ∧ ¬ T.Below id p

/-- What is at or below a block is apart from the block's siblings. -/
theorem apart_of_sibling {q c : ID} (hq : T.IsChild p q) (hc : T.IsChild p c) (hne : q ≠ c)
    (hid : id = q ∨ T.Below q id) : Apart T id c := by
  have hpath : q ∈ T.path id := by
    rcases hid with rfl | hid
    · exact self_mem_path hq.1 hq.2.1
    · exact ((below_iff hq.2.1).mp hid).1
  -- both siblings above one block would be the same
  have hunique : ∀ {x}, q ∈ T.path x → c ∈ T.path x → False := fun hqx hcx =>
    hne (child_unique hqx hcx hq.2.2 hc.2.2)
  have hself := self_mem_path hc.1 hc.2.1
  refine ⟨?_, ?_, ?_⟩
  · rintro rfl
    exact hunique hpath hself
  · intro hb
    have hidr := (of_mem_path hpath).2
    exact hunique (mem_path_trans hpath ((below_iff hidr).mp hb).1) hself
  · intro hb
    exact hunique hpath ((below_iff hc.2.1).mp hb).1

/-- Applying votes changes one instance. -/
theorem Applied.sameSb {nextID : ID} {n : SnowmanBlock} {sb : Tree}
    (happ : Applied ts T p n sb votes nextID ts' T') (hid : id ∈ T'.nodes) (hne : id ≠ p) :
    SameSb ts ts' id := by
  rw [SameSb, happ.lookup id hid, Option.map_map]
  congr 1
  funext m
  rw [Function.comp_apply, applyNode, if_neg hne]
  split <;> rfl

/-- The loop of `vote` that started in `ts₁`, with the block `newPreferred` it returns if it
    ends here: the preferences lead to this block, and from it on nothing has changed. -/
structure Tracking (ts₁ : Topological) (voteStack : List Votes) (ts : Topological)
    (T : RootedTree ID) (newPreferred : ID) (on : Bool) : Prop where
  mem : newPreferred ∈ T.nodes
  leads : Leads ts T newPreferred
  same : ∀ id, id = newPreferred ∨ T.Below newPreferred id → SameSb ts₁ ts id
  tail : ts.tail = ts₁.tail
  preferredIDs : ts.preferredIDs ⊆ ts₁.preferredIDs
  next : on = true → ∀ vote ∈ voteStack.head?, vote.parentID = newPreferred
  apart : on = false → ∀ vote ∈ voteStack, Apart T vote.parentID newPreferred

section tracking

variable {ts₁ : Topological} {vote : Votes} {voteStack : List Votes} {newPreferred : ID} {on : Bool}
  {n : SnowmanBlock} {sb : Tree}

/-- The blocks left on the stack are apart from a preference that is not the next of them. -/
theorem apart_of_next {p c : ID} (hp : p ∈ T.nodes)
    (hdown : Downward T (p :: voteStack.map Votes.parentID)) (hc : T.IsChild p c)
    (hnext : nextOf voteStack ≠ c) : ∀ vote ∈ voteStack, Apart T vote.parentID c := by
  intro vote hvote
  cases voteStack with
  | nil => cases hvote
  | cons next rest =>
    have hq := (isChain_cons_cons.mp hdown.chain).1 hp
    refine apart_of_sibling hq hc hnext ?_
    rcases mem_cons.mp hvote with rfl | hvote
    · exact .inl rfl
    · exact .inr (hdown.of_cons.below hq.1 _ (mem_map_of_mem hvote))

/-- On the preferred branch, nothing accepted: the polled instance leads one block further. -/
theorem Tracking.kept (h : Tracking ts₁ (vote :: voteStack) ts T newPreferred true)
    (hshape : Shape ts T) (hle : ts.params.betaVirtuous ≤ ts.params.betaRogue)
    (hdown : Downward T ((vote :: voteStack).map Votes.parentID))
    (hn : ts.blocks.lookup vote.parentID = some n) (hsb : n.sb = some sb)
    (happ : Applied ts T vote.parentID n sb vote.votes (nextOf voteStack) ts' T)
    (hpref : ts'.preferredIDs = ts.preferredIDs) :
    Tracking ts₁ voteStack ts' T (sb.applyVotes n.shouldFalter vote.votes).preference
      (decide (nextOf voteStack = (sb.applyVotes n.shouldFalter vote.votes).preference)) := by
  have hp : vote.parentID ∈ T.nodes := hshape.mem_iff.mpr ⟨n, hn⟩
  obtain rfl := h.next rfl vote rfl
  have hc := hshape.isChild_applyVotes hle hn hsb vote.votes
  set sb' := sb.applyVotes n.shouldFalter vote.votes with hsb'
  have hpath : T.path sb'.preference = sb'.preference :: T.path vote.parentID := by
    rw [T.path_cons hc.1 hc.2.1, hc.2.2]
  have hself : Prefers ts' vote.parentID sb'.preference := by
    refine ⟨n.applyVotes sb vote.votes, sb', ?_, rfl, rfl⟩
    rw [happ.lookup _ hp, hn, Option.map_some, applyNode, if_pos rfl]
  refine ⟨hc.1, fun d hd => ?_, fun id hid => ?_, happ.tail.trans h.tail, hpref ▸ h.preferredIDs,
    fun hon v hv => ?_, fun hoff => ?_⟩
  · rw [hpath] at hd
    rcases mem_cons.mp hd with rfl | hd
    · rw [hc.2.2]
      exact hself
    -- the parents of the blocks above are above the polled block
    have hdm := mem_of_mem_path hd
    have hne : T.parent d ≠ vote.parentID := fun heq => not_below_self ⟨d, hd, heq⟩
    exact (happ.sameSb (T.parent_mem d hdm.1 hdm.2) hne).prefers (h.leads d hd)
  · have hb : T.Below vote.parentID id := by
      rcases hid with rfl | hid
      · exact hc.below
      · exact hc.below.trans hid
    have hne : id ≠ vote.parentID := by
      rintro rfl
      exact not_below_self hb
    exact (happ.sameSb hb.mem.1 hne).trans (h.same id (.inr hb))
  · cases voteStack with
    | nil => cases hv
    | cons next rest =>
      obtain rfl := Option.some.inj hv
      exact of_decide_eq_true hon
  · exact apart_of_next hp hdown hc (of_decide_eq_false hoff)

/-- On the preferred branch, a block accepted: it is the new head. -/
theorem Tracking.accepted (h : Tracking ts₁ (vote :: voteStack) ts T newPreferred true)
    (hshape : Shape ts T) (hdown : Downward T ((vote :: voteStack).map Votes.parentID))
    (hn : ts.blocks.lookup vote.parentID = some n)
    (happ : Applied ts T vote.parentID n sb vote.votes (nextOf voteStack) ts' T') {sb' : Tree}
    (hacc : Accepted ts T vote.parentID sb' ts' T') :
    Tracking ts₁ voteStack ts' T' sb'.preference (decide (nextOf voteStack = sb'.preference)) := by
  have hp : vote.parentID ∈ T.nodes := hshape.mem_iff.mpr ⟨n, hn⟩
  obtain rfl := h.next rfl vote rfl
  obtain ⟨-, hhead, hchild, rfl, -, -, -, hpref⟩ := hacc
  have hroot : T.root = vote.parentID := hshape.root_eq.trans hhead
  set T' := T.subtree sb'.preference hchild.1 hchild.2.1 with hT'
  have hc : T.IsChild vote.parentID sb'.preference := hroot ▸ hchild
  refine ⟨T'.root_mem, fun d hd => ?_, fun id hid => ?_, happ.tail.trans h.tail, ?_,
    fun hon v hv => ?_, fun hoff v hv => ?_⟩
  · have : d ∈ T'.path T'.root := hd
    rw [path_root] at this
    cases this
  · have hid' : id ∈ T'.nodes := by
      rcases hid with rfl | hid
      · exact T'.root_mem
      · exact hid.mem.1
    have hmem := of_mem_path ((mem_subtree _ _).mp hid')
    have hb : T.Below vote.parentID id := hroot ▸ below_root_iff.mpr hmem
    exact (happ.sameSb hid' (hroot ▸ hmem.2)).trans (h.same id (.inr hb))
  · rw [hpref]
    exact (Finset.erase_subset ..).trans h.preferredIDs
  · cases voteStack with
    | nil => cases hv
    | cons next rest =>
      obtain rfl := Option.some.inj hv
      exact of_decide_eq_true hon
  · -- the blocks left on the stack were rejected
    have hapart := apart_of_next hp hdown hc (of_decide_eq_false hoff) v hv
    have hgone : v.parentID ∉ T'.nodes := by
      intro hmem
      have hpath := (mem_subtree _ _).mp hmem
      exact hapart.2.2 ((below_iff hc.2.1).mpr ⟨hpath, hapart.1.symm⟩)
    exact ⟨hapart.1, fun hb => hgone hb.mem_left, fun hb => hgone hb.mem.1⟩

/-- Off the preferred branch, nothing is accepted and the votes are for blocks apart. -/
theorem Tracking.off (h : Tracking ts₁ (vote :: voteStack) ts T newPreferred false)
    (hshape : Shape ts T)
    (happ : Applied ts T vote.parentID n sb vote.votes (nextOf voteStack) ts' T') {sb' : Tree}
    (hcase : Kept ts T vote.parentID sb' ts' T' ∨ Accepted ts T vote.parentID sb' ts' T') :
    Tracking ts₁ voteStack ts' T' newPreferred false := by
  obtain ⟨hne, hnotabove, hnotbelow⟩ := h.apart rfl vote mem_cons_self
  rcases hcase with hkept | hacc
  · obtain ⟨-, rfl, -, -, -, hpref⟩ := hkept
    refine ⟨h.mem, fun d hd => ?_, fun id hid => ?_, happ.tail.trans h.tail,
      hpref ▸ h.preferredIDs, fun hon => Bool.noConfusion hon,
      fun _ v hv => h.apart rfl v (mem_cons_of_mem _ hv)⟩
    · have hdm := mem_of_mem_path hd
      have hdp : T'.parent d ≠ vote.parentID := fun heq => hnotabove ⟨d, hd, heq⟩
      exact (happ.sameSb (T'.parent_mem d hdm.1 hdm.2) hdp).prefers (h.leads d hd)
    · have hmem : id ∈ T'.nodes := by
        rcases hid with rfl | hid
        · exact h.mem
        · exact hid.mem.1
      have hidp : id ≠ vote.parentID := by
        rintro rfl
        exact hid.elim hne hnotbelow
      exact (happ.sameSb hmem hidp).trans (h.same id hid)
  · -- the head is apart from no block of the tree
    have hroot : T.root = vote.parentID := hshape.root_eq.trans hacc.head_eq
    refine absurd ?_ hnotabove
    rw [← hroot] at hne ⊢
    exact below_root_iff.mpr ⟨h.mem, hne.symm⟩

/-- One application of votes. -/
theorem Tracking.step (h : Tracking ts₁ (vote :: voteStack) ts T newPreferred on)
    (hshape : Shape ts T) (hle : ts.params.betaVirtuous ≤ ts.params.betaRogue)
    (hdown : Downward T ((vote :: voteStack).map Votes.parentID))
    (hn : ts.blocks.lookup vote.parentID = some n) (hsb : n.sb = some sb)
    (happ : Applied ts T vote.parentID n sb vote.votes (nextOf voteStack) ts' T')
    (hcase : Kept ts T vote.parentID (sb.applyVotes n.shouldFalter vote.votes) ts' T' ∨
      Accepted ts T vote.parentID (sb.applyVotes n.shouldFalter vote.votes) ts' T') :
    Tracking ts₁ voteStack ts' T'
      (if on then (sb.applyVotes n.shouldFalter vote.votes).preference else newPreferred)
      (on && decide (nextOf voteStack = (sb.applyVotes n.shouldFalter vote.votes).preference)) := by
  cases on with
  | false => exact h.off hshape happ hcase
  | true =>
    rcases hcase with hkept | hacc
    · obtain rfl := hkept.tree
      exact h.kept hshape hle hdown hn hsb happ hkept.preferredIDs
    · exact h.accepted hshape hdown hn happ hacc

end tracking

/-! ## The operations -/

/-- The preferred IDs are the blocks below the head on the branch that follows the
    preferences, and the tail is where it ends. -/
def OnBranch (ts : Topological) : Prop :=
  ∃ path, Follows ts ts.head path ∧ ts.preferredIDs = path.toFinset ∧
    ts.tail = path.getLastD ts.head

/-- A branch that ends at the tail is enough. -/
theorem Tailed.onBranch (htail : Tailed ts T) (h : Shape ts T)
    (hle : ts.params.betaVirtuous ≤ ts.params.betaRogue) (hpath : Follows ts ts.head path)
    (hlast : ts.tail = path.getLastD ts.head) : OnBranch ts := by
  refine ⟨path, hpath, ?_, hlast⟩
  have hup := (hpath.path_getLastD h hle (h.root_eq ▸ T.root_mem)).2
  rw [← h.root_eq, path_root, append_nil, h.root_eq, ← hlast] at hup
  rw [htail.preferredIDs_eq, hup, toFinset_reverse]

/-- A new block continues the branch that ends at its parent, and no other. -/
theorem Follows.extend (h : Shape ts T) (hle : ts.params.betaVirtuous ≤ ts.params.betaRogue)
    {blk : Block} (hid : blk.id ∉ T.nodes) {parentNode : SnowmanBlock}
    (hn : ts.blocks.lookup blk.parent = some parentNode) {a : ID} (ha : a ∈ T.nodes)
    (hpath : Follows ts a path) :
    ∃ path', Follows (ts.extend parentNode blk) a path' ∧ path'.getLastD a =
        if path.getLastD a = blk.parent then blk.id else path.getLastD a := by
  have hlookup := ts.lookup_extend parentNode blk
  induction path generalizing a with
  | nil =>
    obtain ⟨n, hna, hsb⟩ := hpath
    have hne : a ≠ blk.id := fun heq => hid (heq ▸ ha)
    by_cases hap : a = blk.parent
    · subst hap
      obtain rfl := Option.some.inj (hna.symm.trans hn)
      refine ⟨[blk.id], ⟨⟨n.addChild ts.params blk, Tree.init ts.params blk.id, ?_, ?_, ?_⟩,
        new (some blk), ?_, rfl⟩, (if_pos rfl).symm⟩
      · rw [hlookup, if_neg hne, if_pos rfl]
      · rw [addChild, hsb]
      · rfl
      · rw [hlookup, if_pos rfl]
    refine ⟨[], ⟨n, ?_, hsb⟩, (if_neg hap).symm⟩
    rw [hlookup, if_neg hne, if_neg hap]
    exact hna
  | cons c path ih =>
    obtain ⟨⟨n, sb, hna, hsb, rfl⟩, hrest⟩ := hpath
    have hne : a ≠ blk.id := fun heq => hid (heq ▸ ha)
    obtain ⟨path', hpath', hlast⟩ := ih (h.isChild_preference hle hna hsb).1 hrest
    refine ⟨sb.preference :: path', ⟨?_, hpath'⟩, ?_⟩
    · by_cases hap : a = blk.parent
      · subst hap
        obtain rfl := Option.some.inj (hna.symm.trans hn)
        refine ⟨n.addChild ts.params blk, sb.add blk.id, ?_, ?_, Tree.preference_add ..⟩
        · rw [hlookup, if_neg hne, if_pos rfl]
        · rw [addChild, hsb]
      refine ⟨n, sb, ?_, hsb, rfl⟩
      rw [hlookup, if_neg hne, if_neg hap]
      exact hna
    · rw [getLastD_cons, getLastD_cons]
      exact hlast

/-- The state of a run whose preferred IDs and tail are right. -/
structure Consistent (params : Parameters) (rootID : ID) (ts : Topological) : Prop where
  params_eq : ts.params = params
  crowned : Crowned rootID ts
  shape : ∃ T, Shape ts T ∧ Tailed ts T
  branch : OnBranch ts

theorem Consistent.add (h : Consistent params rootID ts)
    (hle : params.betaVirtuous ≤ params.betaRogue) {blk : Block} (hroot : blk.id ≠ rootID) :
    Consistent params rootID (ts.add blk).1 := by
  obtain ⟨rfl, hhead, ⟨T, hshape, htail⟩, ⟨path, hpath, hpref, hlast⟩⟩ := h
  have hhead' := hhead.add hshape hroot
  rcases hhead.add_cases hshape hroot with hadd | ⟨hid, hadd⟩ | ⟨hid, hp, hst, parentNode, hn, hadd⟩
  · rw [hadd]
    exact ⟨rfl, hhead, ⟨T, hshape, htail⟩, ⟨path, hpath, hpref, hlast⟩⟩
  · rw [hadd] at hhead' ⊢
    exact ⟨rfl, hhead', ⟨T, hshape.reject hid, htail.tail_mem, htail.preferredIDs_eq⟩,
      ⟨path, hpath.of_blocks _ rfl, hpref, hlast⟩⟩
  · rw [hadd] at hhead' ⊢
    have hshape' := hshape.extend hid hp hst hn
    have htail' := htail.extend hid hp parentNode
    obtain ⟨path', hpath', hlast'⟩ := hpath.extend hshape hle hid hn (hshape.root_eq ▸ T.root_mem)
    refine ⟨rfl, hhead', ⟨_, hshape', htail'⟩, htail'.onBranch hshape' hle hpath' ?_⟩
    show (if ts.tail = blk.parent then blk.id else ts.tail) = path'.getLastD ts.head
    rw [hlast, hlast']

theorem Consistent.recordPoll (h : Consistent params rootID ts) (hvalid : params.Valid)
    (pops order : RangeOrder ID) (hlen : (votes.len : Int) ≤ params.k)
    (hun : ∀ T, Shape ts T → Unblocked T params.alpha votes) :
    ∃ ts', ts.recordPoll pops order votes = some ts' ∧ Consistent params rootID ts' := by
  obtain ⟨rfl, hhead, ⟨T, hshape, htail⟩, ⟨path, hpath, hpref, hlast⟩⟩ := h
  have hle := hvalid.betaVirtuous_le
  set ts₁ : Topological := { ts with pollNumber := ts.pollNumber + 1 } with hts1
  have hshape1 : Shape ts₁ T := { hshape with }
  have htail1 : Tailed ts₁ T := { htail with }
  obtain ⟨stack, hstack, hbranch, hcomplete, -⟩ := voteStack_spec hshape1 hvalid hlen pops
  -- the preferences lead to what `vote` returns, and from there to the tail if it is kept
  have hvote : ∃ ts2 T2 preferred, ts₁.vote order stack = some (ts2, preferred) ∧ Shape ts2 T2 ∧
      ts2.params = ts.params ∧ Tailing ts2 T2 ∧ preferred ∈ T2.nodes ∧ Leads ts2 T2 preferred ∧
      (preferred ∈ ts2.preferredIDs →
        ∃ l, Follows ts2 preferred l ∧ ts2.tail = l.getLastD preferred) := by
    cases stack with
    | nil =>
      obtain ⟨blocks, hrun, hshape2, hlookup⟩ := vote_nil hshape1 order
      have hsame : ∀ id, SameSb ts { ts₁ with blocks } id := by
        intro id
        rw [SameSb, hlookup, Option.map_map]
        congr 1
        funext m
        split <;> rfl
      have hroot : Leads ts T ts.head := by
        intro c hc
        rw [← hshape.root_eq, path_root] at hc
        cases hc
      obtain ⟨hleads, hend⟩ := hpath.leads hshape hle hroot
      rw [← hlast] at hleads hend
      refine ⟨_, T, _, hrun, hshape2, rfl, { htail1.tailing with }, htail.tail_mem,
        fun c hc => (hsame _).prefers (hleads c hc), fun _ => ⟨[], ?_, rfl⟩⟩
      exact hend.congr hshape2 hle fun id _ => hsame id
    | cons vote rest =>
      -- the head is on the stack, so it is the first to be voted on
      have hfirst : vote.parentID = ts₁.head :=
        hshape1.root_eq ▸ hbranch.first_eq_root (hcomplete (hun T hshape))
      have hstart : Tracking ts₁ (vote :: rest) ts₁ T ts₁.head true := by
        refine ⟨hshape1.root_eq ▸ T.root_mem, fun c hc => ?_, fun id _ => rfl, rfl,
          Finset.Subset.refl _, fun _ v hv => ?_, fun hoff => Bool.noConfusion hoff⟩
        · rw [← hshape1.root_eq, path_root] at hc
          cases hc
        · obtain rfl := Option.some.inj hv
          exact hfirst
      obtain ⟨ts2, T2, preferred, hrun, hshape2, hparams2, htail2, hmem, rest', on, htrack, -⟩ :=
        voteLoop_rule Tracking.step order (vote :: rest) hshape1 hle htail1.tailing
          (hbranch.downward hvalid.alpha_pos) hstart hstart.mem
          (fun hoff : true = false => Bool.noConfusion hoff)
      refine ⟨ts2, T2, preferred, hrun, hshape2, hparams2, htail2, hmem, htrack.leads,
        fun hpreferred => ?_⟩
      have hold : preferred ∈ path := by
        have := htrack.preferredIDs hpreferred
        rwa [show ts₁.preferredIDs = path.toFinset from hpref, mem_toFinset] at this
      obtain ⟨l, hl, hlast'⟩ := hpath.from hold
      refine ⟨l, ?_, htrack.tail.trans (hlast.trans hlast')⟩
      exact (hl.of_blocks ts₁ rfl).congr hshape2 (by rw [hparams2]; exact hle) htrack.same
  obtain ⟨ts2, T2, preferred, hrun, hshape2, hparams2, htail2, hmem, hleads, hkeep⟩ := hvote
  have hle2 : ts2.params.betaVirtuous ≤ ts2.params.betaRogue := by
    rw [hparams2]
    exact hle
  obtain ⟨tail, preferredIDs, hpoll, htailed, hcases⟩ :=
    recordPoll_of_vote hstack hrun hshape2 hle2 htail2 hmem
  set ts3 : Topological := { ts2 with tail, preferredIDs } with hts3
  have hshape3 : Shape ts3 T2 := { hshape2 with }
  refine ⟨ts3, hpoll, hparams2, hhead.recordPoll hshape hvalid htail hlen hpoll,
    ⟨T2, hshape3, htailed⟩, ?_⟩
  have hend : ∃ l, Follows ts2 preferred l ∧ tail = l.getLastD preferred := by
    rcases hcases with ⟨hpreferred, rfl⟩ | ⟨-, hl⟩
    · exact hkeep hpreferred
    · exact hl
  obtain ⟨l, hl, htail'⟩ := hend
  obtain ⟨path', hpath', hlast'⟩ := hleads.follows preferred hmem l hl
  rw [hshape2.root_eq] at hpath' hlast'
  exact htailed.onBranch hshape3 hle2 (hpath'.of_blocks ts3 rfl) (htail'.trans hlast'.symm)

/-! ## Runs -/

/-- What an operation has to meet in the state it is applied to: blocks other than the root,
    and polls of at most `K` votes that count no block twice or have no majority below the
    head. -/
def Op.Counted (rootID : ID) (ts : Topological) : Op → Prop
  | .add blk => blk.id ≠ rootID
  | .recordPoll _ _ votes => (votes.len : Int) ≤ ts.params.k ∧
    ∀ T, Shape ts T → Unblocked T ts.params.alpha votes

theorem consistent_init {rootHeight : Nat} {status : ID → Status}
    (hinit : init params rootID rootHeight status = .ok ts) : Consistent params rootID ts := by
  obtain ⟨hverify, hparams⟩ := verify_of_init hinit
  have hshape := shape_init hinit
  have htail := tailed_init hinit
  have hcrowned := crowned_init hinit
  rw [init, hverify] at hinit
  obtain rfl := Except.ok.inj hinit
  refine ⟨rfl, hcrowned, ⟨_, hshape, htail⟩, [], ⟨.new none, Finmap.lookup_insert _, rfl⟩, rfl, rfl⟩

theorem Consistent.step (hvalid : params.Valid) (h : Consistent params rootID ts) {op : Op}
    (hop : op.Counted rootID ts) : ∃ ts', ts.step op = some ts' ∧ Consistent params rootID ts' := by
  cases op with
  | add blk => exact ⟨_, rfl, h.add hvalid.betaVirtuous_le hop⟩
  | recordPoll pops order votes =>
    obtain ⟨hlen, hun⟩ := hop
    rw [h.params_eq] at hlen hun
    exact h.recordPoll hvalid pops order hlen hun

/-- **The preferred branch**: after every run whose polls count no block twice, or have no
    majority below the head, the preferred IDs are the branch that follows the preferences from
    the head, and the preference is its end. -/
theorem preferred_run {params : Parameters} {rootID : ID} {rootHeight : Nat} {status : ID → Status}
    {ts₀ : Topological} (hinit : init params rootID rootHeight status = .ok ts₀) (ops : List Op)
    (hops : List.Throughout (fun ts op => op.Counted rootID ts) step ts₀ ops) :
    ∃ ts, ts₀.run ops = some ts ∧ ∃ path, Follows ts ts.head path ∧
      ts.preferredIDs = path.toFinset ∧ ts.preference = path.getLastD ts.head := by
  have hvalid := Parameters.valid_of_verify (verify_of_init hinit).1
  obtain ⟨ts, hrun, hts⟩ := Throughout.foldlM
    (fun ts op (h : Consistent params rootID ts) hop => h.step hvalid hop)
    (consistent_init hinit) hops
  exact ⟨ts, hrun, hts.branch⟩

/-- Two children of the root and a block on the second of them, which then gets both votes. -/
def switchVotes : List Op :=
  [.add ⟨⟨5⟩, ⟨9⟩, 1⟩, .add ⟨⟨1⟩, ⟨9⟩, 1⟩, .add ⟨⟨2⟩, ⟨1⟩, 2⟩,
    .recordPoll .ids .ids (Bag.empty.add [⟨2⟩, ⟨2⟩])]

theorem observed_switchVotes :
    ((init twoVotes ⟨9⟩ 0 fun _ => .processing).toOption.bind (·.run switchVotes)).map
      (fun ts => (ts.head, ts.preference)) = some (⟨9⟩, ⟨2⟩) := by
  decide +kernel

/-- The preference moves from the first child of the root to the branch with the votes. -/
theorem preferred_run_switchVotes : ∃ ts₀ ts,
      init twoVotes ⟨9⟩ 0 (fun _ => .processing) = .ok ts₀ ∧
      List.Throughout (fun ts op => op.Counted ⟨9⟩ ts) step ts₀ switchVotes ∧
      ts₀.run switchVotes = some ts ∧ ts.head = ⟨9⟩ ∧ ts.preference = ⟨2⟩ ∧
      ∃ path, path ≠ [] ∧ Follows ts ts.head path ∧
        ts.preferredIDs = path.toFinset ∧ ts.preference = path.getLastD ts.head := by
  obtain ⟨ts₀, ts, hinit, hrun, hobs⟩ := exists_run_of_observed observed_switchVotes
  obtain ⟨hhead, hpref⟩ := Prod.mk.inj hobs
  have h5 : (⟨5⟩ : ID) ≠ ⟨9⟩ := by decide
  have h1 : (⟨1⟩ : ID) ≠ ⟨9⟩ := by decide
  have h2 : (⟨2⟩ : ID) ≠ ⟨9⟩ := by decide
  have hops : Throughout (fun ts op => op.Counted ⟨9⟩ ts) step ts₀ switchVotes := by
    refine ⟨h5, fun ts₁ hts₁ => ⟨h1, fun ts₂ hts₂ => ⟨h2, fun ts₃ hts₃ => ⟨⟨?_, fun T _ => ?_⟩,
      fun _ _ => trivial⟩⟩⟩⟩
    · rw [← Option.some.inj hts₃, params_add, ← Option.some.inj hts₂, params_add,
        ← Option.some.inj hts₁, params_add, (verify_of_init hinit).2]
      decide
    · exact .inl (countedOnce_of_list_eq rfl)
  obtain ⟨ts', hrun', path, hpath⟩ := preferred_run hinit switchVotes hops
  obtain rfl := Option.some.inj (hrun.symm.trans hrun')
  refine ⟨ts₀, ts, hinit, hops, hrun, hhead, hpref, path, ?_, hpath⟩
  rintro rfl
  have hend := hpath.2.2
  rw [hpref, getLastD_nil, hhead] at hend
  cases hend

/-- Two children of the root, and a chain of two blocks below the second of them; then a poll
    with one vote for each block of the chain. -/
def chainVotes : List Op :=
  [.add ⟨⟨5⟩, ⟨9⟩, 1⟩, .add ⟨⟨1⟩, ⟨9⟩, 1⟩, .add ⟨⟨2⟩, ⟨1⟩, 2⟩, .add ⟨⟨3⟩, ⟨2⟩, 3⟩,
    .recordPoll .ids .ids (Bag.empty.add [⟨2⟩, ⟨3⟩])]

theorem allowed_chainVotes : Allowed twoVotes ⟨9⟩ 0 (fun _ => .processing) [] chainVotes := by
  have hlen : ((Bag.empty.add [⟨2⟩, ⟨3⟩]).len : Int) ≤ twoVotes.k := by decide
  exact ⟨⟨by decide, by decide, rfl, .inl ⟨rfl, rfl⟩⟩, ⟨by decide, by decide, rfl, .inl ⟨rfl, rfl⟩⟩,
    ⟨by decide, by decide, rfl, .inr ⟨⟨⟨1⟩, ⟨9⟩, 1⟩, by decide, rfl, rfl⟩⟩,
    ⟨by decide, by decide, rfl, .inr ⟨⟨⟨2⟩, ⟨1⟩, 2⟩, by decide, rfl, rfl⟩⟩, hlen, trivial⟩

/-- The preference of the instance of a block, if it has one. -/
def preferenceAt (ts : Topological) (id : ID) : Option ID :=
  ((ts.blocks.lookup id).bind sb).map Tree.preference

theorem observed_chainVotes :
    ((init twoVotes ⟨9⟩ 0 fun _ => .processing).toOption.bind (·.run chainVotes)).map
      (fun ts => (ts.preferenceAt ts.head, decide (⟨5⟩ ∈ ts.preferredIDs))) =
        some (some ⟨5⟩, false) := by
  decide +kernel

/-- The head prefers a block that is not among the preferred IDs. -/
theorem exists_preference_not_preferred :
    ∃ ts₀ ts, init twoVotes ⟨9⟩ 0 (fun _ => .processing) = .ok ts₀ ∧
      Allowed twoVotes ⟨9⟩ 0 (fun _ => .processing) [] chainVotes ∧
      ts₀.run chainVotes = some ts ∧ ¬ ∃ path, Follows ts ts.head path ∧
        ts.preferredIDs = path.toFinset ∧ ts.preference = path.getLastD ts.head := by
  obtain ⟨ts₀, ts, hinit, hrun, hobs⟩ := exists_run_of_observed observed_chainVotes
  obtain ⟨hprefers, hnot⟩ := Prod.mk.inj hobs
  refine ⟨ts₀, ts, hinit, allowed_chainVotes, hrun, ?_⟩
  rintro ⟨path, hpath, hpref, -⟩
  cases path with
  | nil =>
    obtain ⟨n, hn, hsb⟩ := hpath
    rw [preferenceAt, hn, Option.bind_some, hsb] at hprefers
    cases hprefers
  | cons c path =>
    obtain ⟨⟨n, sb, hn, hsb, hc⟩, -⟩ := hpath
    rw [preferenceAt, hn, Option.bind_some, hsb] at hprefers
    have hc : c = ⟨5⟩ := hc.symm.trans (Option.some.inj hprefers)
    refine of_decide_eq_false hnot ?_
    rw [hpref, hc]
    exact mem_toFinset.mpr mem_cons_self

end Topological

end SavannahNode
