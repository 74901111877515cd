import SavannahNode.Spec.TopologicalVotes

/-!
# Applying the votes of a poll

The body of the loop of `vote` polls one snowball instance, accepts the preferred child if
the instance is the head's and finalized, and flags the children whose confidence has to be
reset. `Applied` says what of the state it changes, for every block of the tree that is left.

## Key results

- `Topological.voteOn_spec`: the body of the loop never panics, and does what `Applied` says
- `Topological.prefer_spec`: the preferred IDs are the path from the tail up to the head
- `Topological.voteLoop_rule`, `Topological.recordPoll_rule`: a poll keeps what each
  application of votes keeps
-/

namespace SavannahNode

open List SavannahNode.RootedTree Finset

/-- Apply the votes to an instance, which falters first if its block was flagged. -/
def Tree.applyVotes (sb : Tree) (shouldFalter : Bool) (votes : Bag) : Tree :=
  ((if shouldFalter then sb.recordUnsuccessfulPoll else sb).recordPoll votes).1

/-- The node of a block after its instance was polled. -/
def SnowmanBlock.applyVotes (n : SnowmanBlock) (sb : Tree) (votes : Bag) : SnowmanBlock :=
  { n with sb := some (sb.applyVotes n.shouldFalter votes), shouldFalter := false }

theorem SnowmanBlock.Sound.applyVotes {params : Parameters} {n : SnowmanBlock} (h : n.Sound params)
    {sb : Tree} (hsb : n.sb = some sb) (votes : Bag) : (n.applyVotes sb votes).Sound params := by
  rw [SnowmanBlock.applyVotes, Tree.applyVotes]
  cases n.shouldFalter with
  | false => exact h.step hsb (.recordPoll votes) rfl false
  | true =>
    have hfalter := h.step hsb .recordUnsuccessfulPoll rfl false
    exact hfalter.step rfl (.recordPoll votes) rfl false

namespace Topological

variable {ts : Topological} {T : RootedTree ID}

/-! ## Flagging children -/

/-- Flagging blocks changes nothing else. -/
theorem falterChildren_spec (ts : Topological) (children : List ID) :
    ∃ blocks, ts.falterChildren children = { ts with blocks } ∧
      ∀ id, blocks.lookup id = (ts.blocks.lookup id).map fun n =>
        if id ∈ children then { n with shouldFalter := true } else n := by
  induction children generalizing ts with
  | nil => exact ⟨ts.blocks, rfl, fun id => by simp⟩
  | cons c children ih =>
    rw [falterChildren, foldl_cons]
    cases hc : ts.blocks.lookup c with
    | none =>
      obtain ⟨blocks, hrun, hlookup⟩ := ih ts
      refine ⟨blocks, hrun, fun id => ?_⟩
      rw [hlookup]
      by_cases hid : id = c
      · subst hid
        rw [hc]
        rfl
      · simp [hid]
    | some n =>
      obtain ⟨blocks, hrun, hlookup⟩ :=
        ih { ts with blocks := ts.blocks.insert c { n with shouldFalter := true } }
      refine ⟨blocks, hrun, fun id => ?_⟩
      rw [hlookup]
      rw [Finmap.lookup_insert_map (fun n => { n with shouldFalter := true }) hc, Option.map_map]
      congr 1
      funext m
      by_cases hid : id = c
      · simp [hid]
      · simp [hid]

/-! ## The body of the loop -/

/-- What polling the instance `sb` of `p` does to the node of a block `id` that stays. -/
def applyNode (T : RootedTree ID) (p : ID) (sb : Tree) (votes : Bag) (shouldFalter : Bool)
    (nextID id : ID) (n : SnowmanBlock) : SnowmanBlock :=
  if id = p then n.applyVotes sb votes
  else if T.IsChild p id ∧ (shouldFalter = true ∨ id ≠ nextID) then { n with shouldFalter := true }
  else n

variable {p rootID id : ID} {n : SnowmanBlock} {sb : Tree} {params : Parameters} {rootHeight : Nat}
  {status : ID → Status} {blk : Block} {votes : Bag} {ts' : Topological} {ids : List ID}

variable (h : Shape ts T) (hle : ts.params.betaVirtuous ≤ ts.params.betaRogue)

/-- The state after the votes for `p` were applied, with the tree `T'` that is left. -/
structure Applied (ts : Topological) (T : RootedTree ID) (p : ID) (n : SnowmanBlock) (sb : Tree)
    (votes : Bag) (nextID : ID) (ts' : Topological) (T' : RootedTree ID) : Prop where
  shape : Shape ts' T'
  params : ts'.params = ts.params
  tail : ts'.tail = ts.tail
  lookup : ∀ id ∈ T'.nodes, ts'.blocks.lookup id =
    (ts.blocks.lookup id).map (applyNode T p sb votes n.shouldFalter nextID id)

/-- Nothing was accepted. -/
structure Kept (ts : Topological) (T : RootedTree ID) (p : ID) (sb' : Tree) (ts' : Topological)
    (T' : RootedTree ID) : Prop where
  not_final : ¬ (sb'.finalized = true ∧ ts.head = p)
  tree : T' = T
  decidables : ts'.decidables = ts.decidables
  head : ts'.head = ts.head
  height : ts'.height = ts.height
  preferredIDs : ts'.preferredIDs = ts.preferredIDs

/-- The preferred child of the head was accepted. -/
structure Accepted (ts : Topological) (T : RootedTree ID) (p : ID) (sb' : Tree) (ts' : Topological)
    (T' : RootedTree ID) : Prop where
  final : sb'.finalized = true
  head_eq : ts.head = p
  isChild : T.IsChild T.root sb'.preference
  tree : T' = T.subtree sb'.preference isChild.1 isChild.2.1
  decidables : ∃ rejected : List ID,
    ts'.decidables = (ts.decidables.accept sb'.preference).rejectAll rejected ∧ rejected.Nodup ∧
      ∀ id, id ∈ rejected ↔ id ∈ T.nodes ∧ id ≠ T.root ∧ sb'.preference ∉ T.path id
  head : ts'.head = sb'.preference
  height : ∃ m b, ts.blocks.lookup sb'.preference = some m ∧ m.blk = some b ∧ ts'.height = b.height
  preferredIDs : ts'.preferredIDs = ts.preferredIDs.erase sb'.preference

include h hle in
/-- The body of the loop of `vote`, for a block with children. -/
theorem voteOn_spec (order : RangeOrder ID) {vote : Votes}
    (hn : ts.blocks.lookup vote.parentID = some n) (hsb : n.sb = some sb) (nextID : ID) :
    ∃ ts' T', ts.voteOn order n vote nextID =
        some (ts', (sb.applyVotes n.shouldFalter vote.votes).preference) ∧
      Applied ts T vote.parentID n sb vote.votes nextID ts' T' ∧
      (Kept ts T vote.parentID (sb.applyVotes n.shouldFalter vote.votes) ts' T' ∨
        Accepted ts T vote.parentID (sb.applyVotes n.shouldFalter vote.votes) ts' T') := by
  set p := vote.parentID with hp
  set sb' := sb.applyVotes n.shouldFalter vote.votes with hsb'
  set n' := n.applyVotes sb vote.votes with hn'
  -- the state with the polled instance
  set ts1 : Topological := { ts with blocks := ts.blocks.insert p n' } with hts1
  have hlookup1 : ∀ id, ts1.blocks.lookup id =
      (ts.blocks.lookup id).map fun m => if id = p then n' else m :=
    Finmap.lookup_insert_map (fun _ => n') hn
  have hshape1 : Shape ts1 T := by
    refine h.mapNodes rfl rfl rfl hlookup1 fun id m hm => ?_
    by_cases hid : id = p
    · rw [if_pos hid]
      rw [hid, hn] at hm
      obtain rfl := Option.some.inj hm
      exact ⟨rfl, rfl, (h.sound _ _ hn).applyVotes hsb vote.votes⟩
    rw [if_neg hid]
    exact ⟨rfl, rfl, h.sound id m hm⟩
  have hn1 : ts1.blocks.lookup p = some n' := by
    rw [hlookup1, hn]
    simp
  set children := (order.list n.children.keys).filter
    fun childID => n.shouldFalter || decide (childID ≠ nextID) with hchildren
  have hmem : ∀ id, id ∈ children ↔ T.IsChild p id ∧ (n.shouldFalter = true ∨ id ≠ nextID) := by
    intro id
    rw [mem_filter, order.mem_list, (h.filed hn).1, Bool.or_eq_true, decide_eq_true_eq]
  have hrun : ts.voteOn order n vote nextID = if (sb'.finalized && decide (ts.head = p)) = true then
        (ts1.acceptPreferredChild order n').bind fun ts2 =>
          some (Topological.falterChildren { ts2 with blocks := ts2.blocks.erase p } children,
            sb'.preference)
      else some (ts1.falterChildren children, sb'.preference) := by
    rw [voteOn, hsb]
    rfl
  -- flagging the children afterwards
  have hflag : ∀ {ts2 : Topological} {T' : RootedTree ID}, Shape ts2 T' →
      (∀ id ∈ T'.nodes, ts2.blocks.lookup id = ts1.blocks.lookup id) →
      ∃ blocks, ts2.falterChildren children = { ts2 with blocks } ∧ Shape { ts2 with blocks } T' ∧
        ∀ id ∈ T'.nodes, blocks.lookup id =
          (ts.blocks.lookup id).map (applyNode T p sb vote.votes n.shouldFalter nextID id) := by
    intro ts2 T' hshape2 hlookup2
    obtain ⟨blocks, hfalter, hblocks⟩ := ts2.falterChildren_spec children
    refine ⟨blocks, hfalter, ?_, fun id hid => ?_⟩
    · refine hshape2.mapNodes rfl rfl rfl hblocks fun id m hm => ?_
      have hsound := hshape2.sound id m hm
      split
      · exact ⟨rfl, rfl, hsound⟩
      · exact ⟨rfl, rfl, hsound⟩
    rw [hblocks, hlookup2 id hid, hlookup1, Option.map_map]
    cases hm : ts.blocks.lookup id with
    | none => rfl
    | some m =>
      simp only [Option.map_some, Function.comp_apply, applyNode, Option.some.injEq, hmem]
      by_cases hidp : id = p
      · -- a block is no child of its own
        have hself : ¬ T.IsChild p id := fun hc =>
          not_below_self (hidp ▸ hc.below)
        rw [if_pos hidp, if_pos hidp, if_neg fun hc => hself hc.1]
        rw [hidp, hn] at hm
        rw [← Option.some.inj hm]
      · rw [if_neg hidp, if_neg hidp]
  by_cases hfin : sb'.finalized = true ∧ ts.head = p
  · obtain ⟨hfin, hhead⟩ := hfin
    have hn1' : ts1.blocks.lookup ts1.head = some n' := by
      rw [hhead]
      exact hn1
    obtain ⟨hchild, child, blocks, rejected, hcl, haccept, hblocks, hrej, hrejmem⟩ :=
      acceptPreferredChild_spec hshape1 hle order hn1' (show n'.sb = some sb' from rfl)
    have hshape2 := hshape1.acceptChild hchild child.height hblocks hrejmem
    have hnode := (hshape1.children _ _ hn1' sb'.preference child).mp hcl
    obtain ⟨-, m1, hm1, hmb⟩ := hnode
    have hm : ∃ m, ts.blocks.lookup sb'.preference = some m ∧ m.blk = some child := by
      have hne : sb'.preference ≠ p := fun heq => hchild.2.1 (by rw [heq, h.root_eq, hhead])
      rw [hlookup1] at hm1
      obtain ⟨m, hm, heq⟩ := Option.map_eq_some_iff.mp hm1
      rw [if_neg hne] at heq
      exact ⟨m, hm, heq ▸ hmb⟩
    obtain ⟨blocks', hfalter, hshape', hlookup'⟩ := hflag hshape2 (fun id hid => by
      have hpath := (mem_subtree _ _).mp hid
      have hne : id ≠ ts1.head := by
        rw [← hshape1.root_eq]
        exact (of_mem_path hpath).2
      rw [Finmap.lookup_erase_ne hne, hblocks, if_pos (.inr hpath)])
    refine ⟨_, _, ?_, ⟨hshape', rfl, rfl, hlookup'⟩,
      .inr ⟨hfin, hhead, hchild, rfl, ⟨rejected, rfl, hrej, hrejmem⟩, rfl, ?_, rfl⟩⟩
    · have hcond : (sb'.finalized && decide (ts.head = p)) = true := by
        rw [hfin, hhead]
        simp
      rw [hrun, if_pos hcond, haccept, Option.bind_some, ← hfalter, ← hhead]
      rfl
    · obtain ⟨m, hm, hmb⟩ := hm
      exact ⟨m, child, hm, hmb, rfl⟩
  · obtain ⟨blocks', hfalter, hshape', hlookup'⟩ := hflag hshape1 fun _ _ => rfl
    refine ⟨_, T, ?_, ⟨hshape', rfl, rfl, hlookup'⟩, .inl ⟨hfin, rfl, rfl, rfl, rfl, rfl⟩⟩
    rw [hrun, if_neg (by simpa using hfin), hfalter]

/-! ## The preferred path -/

/-- The preferred IDs are the path from the tail up to the head. -/
structure Tailed (ts : Topological) (T : RootedTree ID) : Prop where
  tail_mem : ts.tail ∈ T.nodes
  preferredIDs_eq : ts.preferredIDs = (T.path ts.tail).toFinset

theorem tailed_init (hinit : init params rootID rootHeight status = .ok ts) :
    Tailed ts (.single rootID) := by
  rw [init] at hinit
  split at hinit
  · cases hinit
  obtain rfl := Except.ok.inj hinit
  refine ⟨Finset.mem_singleton_self _, ?_⟩
  show ∅ = ((single rootID).path (single rootID).root).toFinset
  rw [path_root, toFinset_nil]

/-- A new block extends the path if it is added at the tail. -/
theorem Tailed.extend (h : Tailed ts T) (hid : blk.id ∉ T.nodes) (hp : blk.parent ∈ T.nodes)
    (parentNode : SnowmanBlock) :
    Tailed (ts.extend parentNode blk) (T.addLeaf blk.id blk.parent hid hp) := by
  by_cases htail : ts.tail = blk.parent
  · have htail' : (ts.extend parentNode blk).tail = blk.id := if_pos htail
    have hpref : (ts.extend parentNode blk).preferredIDs = insert blk.id ts.preferredIDs :=
      if_pos htail
    refine ⟨by rw [htail']; exact mem_insert_self _ _, ?_⟩
    rw [hpref, htail', path_addLeaf_self, toFinset_cons, h.preferredIDs_eq, htail]
  have htail' : (ts.extend parentNode blk).tail = ts.tail := if_neg htail
  have hpref : (ts.extend parentNode blk).preferredIDs = ts.preferredIDs := if_neg htail
  refine ⟨by rw [htail']; exact mem_insert_of_mem h.tail_mem, ?_⟩
  rw [hpref, htail', path_addLeaf hid hp h.tail_mem, h.preferredIDs_eq]

/-- The same in the middle of a poll, when the tail may have been rejected. -/
structure Tailing (ts : Topological) (T : RootedTree ID) : Prop where
  mem_iff : ∀ id ∈ T.nodes, id ∈ ts.preferredIDs ↔ id ∈ T.path ts.tail
  subset : ts.tail ∈ T.nodes → ts.preferredIDs ⊆ T.nodes

theorem Tailed.tailing (h : Tailed ts T) : Tailing ts T where
  mem_iff id _ := by rw [h.preferredIDs_eq, mem_toFinset]
  subset _ id hid := by
    rw [h.preferredIDs_eq, mem_toFinset] at hid
    exact (mem_of_mem_path hid).1

/-- A preferred ID that is left shows that the tail is, too. -/
theorem Tailing.tailed (h : Tailing ts T) (hid : id ∈ T.nodes) (hpref : id ∈ ts.preferredIDs) :
    Tailed ts T := by
  have htail := (of_mem_path ((h.mem_iff id hid).mp hpref)).1
  refine ⟨htail, ?_⟩
  ext x
  rw [mem_toFinset]
  constructor
  · intro hx
    exact (h.mem_iff x (h.subset htail hx)).mp hx
  · intro hx
    exact (h.mem_iff x (mem_of_mem_path hx).1).mpr hx

/-- The loop of `vote` keeps `Tailing`: an accepted block leaves the path at its end. -/
theorem Tailing.applied (h : Tailing ts T) {nextID : ID} {T' : RootedTree ID}
    (happ : Applied ts T p n sb votes nextID ts' T') {sb' : Tree}
    (hcase : Kept ts T p sb' ts' T' ∨ Accepted ts T p sb' ts' T') : Tailing ts' T' := by
  rcases hcase with hkept | hacc
  · obtain ⟨-, rfl, -, -, -, hpref⟩ := hkept
    exact ⟨by rw [hpref, happ.tail]; exact h.mem_iff, by rw [hpref, happ.tail]; exact h.subset⟩
  obtain ⟨-, -, hchild, rfl, -, -, -, hpref⟩ := hacc
  have hmem : ∀ id, sb'.preference ∈ T.path id → id ∈ T.nodes := fun id hid => (of_mem_path hid).1
  refine ⟨fun id hid => ?_, fun htail id hid => ?_⟩
  · have hid := (mem_subtree _ _).mp hid
    rw [hpref, happ.tail, mem_erase, h.mem_iff id (hmem id hid)]
    by_cases htail : sb'.preference ∈ T.path ts.tail
    · rw [mem_path_subtree _ _ hchild.2.2 htail, and_comm]
    -- the tail was rejected, and with it everything preferred
    constructor
    · rintro ⟨-, hpath⟩
      exact absurd (mem_path_trans hid hpath) htail
    intro hpath
    have := (of_mem_path hpath).1
    exact absurd ((mem_subtree _ _).mp this) htail
  · rw [happ.tail] at htail
    have htail := (mem_subtree _ _).mp htail
    rw [hpref, mem_erase] at hid
    have hidm := h.subset (hmem _ htail) hid.2
    have hpath := (h.mem_iff id hidm).mp hid.2
    rw [mem_subtree]
    rcases mem_path_total htail hpath with hc | hc
    · exact hc
    -- only the accepted child is at or above itself, below the root
    refine absurd ?_ hid.1
    rcases (mem_path_iff.mp hc).2 with heq | hup
    · exact heq
    rw [hchild.2.2, path_root] at hup
    cases hup

/-- The blocks below `id` on the branch that follows the preferences, to its end. -/
def Follows (ts : Topological) : ID → List ID → Prop
  | id, [] => ∃ n, ts.blocks.lookup id = some n ∧ n.sb = none
  | id, c :: l => (∃ n sb, ts.blocks.lookup id = some n ∧ n.sb = some sb ∧ sb.preference = c) ∧
      Follows ts c l

section

variable (hn : ts.blocks.lookup p = some n) (hsb : n.sb = some sb)

include h hle hn hsb

theorem Shape.isChild_preference : T.IsChild p sb.preference :=
  ((h.filed hn).1 _).mp (Finmap.mem_keys.mpr ((h.sound p n hn).preference_mem hle hsb))

theorem Shape.isChild_applyVotes (votes : Bag) :
    T.IsChild p (sb.applyVotes n.shouldFalter votes).preference := by
  have hsound := (h.sound p n hn).applyVotes hsb votes
  have hpref := hsound.preference_mem hle (show _ = some (sb.applyVotes n.shouldFalter votes) from rfl)
  exact ((h.filed hn).1 _).mp (Finmap.mem_keys.mpr hpref)

end

/-- The walk from a block to the head. -/
theorem preferAncestors_spec (h : Shape ts T) :
    ∀ id ∈ T.nodes, ∀ n, ts.blocks.lookup id = some n → ∀ (fuel : Nat) (preferredIDs : Finset ID),
      (T.path id).length < fuel →
      preferAncestors fuel n { ts with preferredIDs } =
        some { ts with preferredIDs := preferredIDs ∪ (T.path id).toFinset } := by
  refine T.induction ?_ ?_
  · intro n hn fuel preferredIDs hfuel
    obtain ⟨fuel, rfl⟩ := Nat.exists_eq_add_one_of_ne_zero (Nat.ne_of_gt (Nat.zero_lt_of_lt hfuel))
    have hacc := (h.accepted_iff hn).mpr h.root_eq
    rw [preferAncestors, if_pos hacc, path_root, toFinset_nil, union_empty]
  intro id hid hr ih n hn fuel preferredIDs hfuel
  obtain ⟨fuel, rfl⟩ := Nat.exists_eq_add_one_of_ne_zero (Nat.ne_of_gt (Nat.zero_lt_of_lt hfuel))
  have hne : id ≠ ts.head := h.root_eq ▸ hr
  obtain ⟨b, hb, hbid, hparent, -⟩ := h.blk id n hn hne
  have hacc : ¬ n.accepted ts.decidables = true := fun hacc => hne ((h.accepted_iff hn).mp hacc)
  obtain ⟨m, hm⟩ := h.mem_iff.mp (T.parent_mem id hid hr)
  rw [T.path_cons hid hr, length_cons] at hfuel
  have hrun := ih m hm fuel (insert id preferredIDs) (by omega)
  rw [← hparent] at hm
  rw [preferAncestors, if_neg hacc, hb]
  simp only [Option.bind_eq_bind, Option.bind_some, hbid]
  rw [hm, Option.bind_some, hrun, T.path_cons hid hr, toFinset_cons, insert_union, union_insert]

include h hle in
/-- The walk from a block to the end of the preferred branch. -/
theorem preferDescendants_spec (fuel : Nat) (hn : ts.blocks.lookup id = some n)
    (preferredIDs : Finset ID) (hfuel : T.nodes.card ≤ fuel + (T.path id).length) :
    ∃ l, Follows ts id l ∧ preferDescendants fuel n { ts with preferredIDs, tail := id } =
        some { ts with preferredIDs := preferredIDs ∪ l.toFinset, tail := l.getLastD id } := by
  induction fuel generalizing id n preferredIDs with
  | zero =>
    have := T.length_path_lt id
    omega
  | succ fuel ih =>
    cases hsb : n.sb with
    | none =>
      refine ⟨[], ⟨n, hn, hsb⟩, ?_⟩
      rw [preferDescendants, hsb]
      simp
    | some sb =>
      have hchild := h.isChild_preference hle hn hsb
      obtain ⟨m, hm⟩ := h.mem_iff.mp hchild.1
      have hlen : (T.path sb.preference).length = (T.path id).length + 1 := by
        rw [T.path_cons hchild.1 hchild.2.1, hchild.2.2, length_cons]
      obtain ⟨l, hl, hrun⟩ := ih hm (insert sb.preference preferredIDs) (by omega)
      refine ⟨sb.preference :: l, ⟨⟨n, sb, hn, hsb, rfl⟩, hl⟩, ?_⟩
      rw [preferDescendants, hsb]
      simp only [Option.bind_eq_bind, hm, Option.bind_some]
      rw [hrun, toFinset_cons, insert_union, union_insert, getLastD_cons]

include h hle in
/-- Where following preferences from a block of the tree leads. -/
theorem Follows.path_getLastD {l : List ID} (hid : id ∈ T.nodes) (hl : Follows ts id l) :
    l.getLastD id ∈ T.nodes ∧ T.path (l.getLastD id) = l.reverse ++ T.path id := by
  induction l generalizing id with
  | nil => exact ⟨hid, rfl⟩
  | cons c l ih =>
    obtain ⟨⟨n, sb, hn, hsb, rfl⟩, hl⟩ := hl
    have hchild := h.isChild_preference hle hn hsb
    obtain ⟨hmem, hpath⟩ := ih hchild.1 hl
    rw [getLastD_cons]
    refine ⟨hmem, ?_⟩
    rw [hpath, T.path_cons hchild.1 hchild.2.1, hchild.2.2, reverse_cons, append_assoc,
      singleton_append]

include h hle in
/-- The part of `RecordPoll` after `vote`: nothing changes when the block is preferred
    already, else the preferred path is made to go through it. -/
theorem prefer_spec (htail : Tailing ts T) {preferred : ID} (hpref : preferred ∈ T.nodes) :
    ∃ tail preferredIDs, ts.prefer preferred = some { ts with tail, preferredIDs } ∧
      Tailed { ts with tail, preferredIDs } T ∧
      (preferred ∈ ts.preferredIDs ∧ tail = ts.tail ∨
        preferred ∉ ts.preferredIDs ∧ ∃ l, Follows ts preferred l ∧ tail = l.getLastD preferred) := by
  by_cases hmem : preferred ∈ ts.preferredIDs
  · exact ⟨ts.tail, ts.preferredIDs, if_pos hmem, htail.tailed hpref hmem, .inl ⟨hmem, rfl⟩⟩
  obtain ⟨n, hn⟩ := h.mem_iff.mp hpref
  have hshape : Shape { ts with preferredIDs := ∅, tail := preferred } T := { h with }
  have hfuel : (T.path preferred).length < ts.blocks.keys.card :=
    h.nodes_eq ▸ T.length_path_lt preferred
  have hanc := preferAncestors_spec hshape preferred hpref n hn ts.blocks.keys.card ∅ hfuel
  obtain ⟨l, hl, hdesc⟩ := preferDescendants_spec h hle ts.blocks.keys.card hn
    (∅ ∪ (T.path preferred).toFinset) (by rw [h.nodes_eq]; omega)
  obtain ⟨hlast, hpath⟩ := hl.path_getLastD h hle hpref
  refine ⟨l.getLastD preferred, ∅ ∪ (T.path preferred).toFinset ∪ l.toFinset, ?_, ⟨hlast, ?_⟩,
    .inr ⟨hmem, l, hl, rfl⟩⟩
  · rw [prefer, if_neg hmem]
    simp only [Option.bind_eq_bind, hn, Option.bind_some]
    rw [hanc]
    exact hdesc
  · rw [hpath]
    ext x
    simp [or_comm]

/-! ## The loop -/

/-- The IDs go down the tree one block at a time, and each has children, as far as they are
    in the tree. -/
structure Downward (T : RootedTree ID) (ids : List ID) : Prop where
  chain : ids.IsChain fun a b => a ∈ T.nodes → T.IsChild a b
  child : ∀ a ∈ ids, a ∈ T.nodes → ∃ c, T.IsChild a c

theorem Downward.of_cons (h : Downward T (p :: ids)) : Downward T ids :=
  ⟨h.chain.tail, fun a ha => h.child a (mem_cons_of_mem _ ha)⟩

/-- Everything after a block of the tree is below it. -/
theorem Downward.below (h : Downward T (p :: ids)) (hp : p ∈ T.nodes) : ∀ a ∈ ids, T.Below p a := by
  induction ids generalizing p with
  | nil => exact fun a ha => absurd ha not_mem_nil
  | cons q ids ih =>
    have hq := (isChain_cons_cons.mp h.chain).1 hp
    intro a ha
    rcases mem_cons.mp ha with rfl | ha
    · exact hq.below
    · exact hq.below.trans (ih h.of_cons hq.1 a ha)

theorem Downward.subtree (h : Downward T ids) {c : ID} (hc : c ∈ T.nodes) (hr : c ≠ T.root) :
    Downward (T.subtree c hc hr) ids := by
  constructor
  · refine h.chain.imp fun a b hab ha => ?_
    have ha := (mem_subtree hc hr).mp ha
    exact (isChild_subtree hc hr ha).mpr (hab (of_mem_path ha).1)
  intro a hmem ha
  have ha := (mem_subtree hc hr).mp ha
  obtain ⟨d, hd⟩ := h.child a hmem (of_mem_path ha).1
  exact ⟨d, (isChild_subtree hc hr ha).mpr hd⟩

/-- The stack of a poll goes down the tree. -/
theorem Branch.downward {alpha : Int} (hpos : 0 < alpha) {stack : List Votes}
    (h : Branch T alpha votes stack) : Downward T (stack.map Votes.parentID) := by
  constructor
  · rw [isChain_iff_forall_rel_of_append_cons_cons]
    intro a b l1 l2 hids _
    have hpair := h.pairwise
    have hchain := h.chain
    rw [hids] at hpair hchain
    have hbelow : T.Below a b := (pairwise_cons.mp (pairwise_append.mp hpair).2.1).1 b mem_cons_self
    exact ⟨hbelow.mem.1, hbelow.mem.2, isChain_iff_forall_rel_of_append_cons_cons.mp hchain rfl⟩
  intro a ha _
  obtain ⟨vote, hvote, rfl⟩ := mem_map.mp ha
  have hsupp := h.support_ge vote hvote
  by_contra hnone
  -- without children nothing is below the block
  have hzero : support T votes vote.parentID = votes.countWhere fun _ => false := by
    refine Bag.countWhere_congr fun v _ => decide_eq_false fun hb => hnone ?_
    obtain ⟨c, hc, -⟩ := below_iff_child.mp hb
    exact ⟨c, hc⟩
  rw [hzero, Bag.countWhere_false] at hsupp
  omega

/-- A block with children has an instance, and its preference is one of them. -/
theorem Shape.exists_sb (h : Shape ts T) {c : ID} (hn : ts.blocks.lookup p = some n)
    (hc : T.IsChild p c) : ∃ sb, n.sb = some sb := by
  cases hsb : n.sb with
  | some sb => exact ⟨sb, rfl⟩
  | none =>
    have hmem := ((h.filed hn).1 c).mpr hc
    rw [(h.sound p n hn).eq_empty hsb] at hmem
    exact absurd hmem (notMem_empty c)

/-- The next ID of the loop of `vote`. -/
def nextOf (voteStack : List Votes) : ID :=
  match voteStack with
  | [] => ID.empty
  | next :: _ => next.parentID

theorem voteLoop_cons (order : RangeOrder ID) {vote : Votes} (voteStack : List Votes)
    (hn : ts.blocks.lookup vote.parentID = some n) (newPreferred : ID) (on : Bool) :
    voteLoop order (vote :: voteStack) ts newPreferred on =
      (ts.voteOn order n vote (nextOf voteStack)).bind fun r =>
        voteLoop order voteStack r.1 (if on then r.2 else newPreferred)
          (on && decide (nextOf voteStack = r.2)) := by
  rw [voteLoop.eq_def]
  dsimp only
  rw [hn]
  rfl

/-- The loop leaves the preferred branch only where nothing more is accepted. -/
theorem root_notMem_of_off {voteStack : List Votes} {sb' : Tree} {T' : RootedTree ID}
    (hp : p ∈ T.nodes) (hroot : T.root = ts.head)
    (hdown : Downward T (p :: voteStack.map Votes.parentID))
    (hcase : Kept ts T p sb' ts' T' ∨ Accepted ts T p sb' ts' T')
    (hnext : nextOf voteStack ≠ sb'.preference) : T'.root ∉ voteStack.map Votes.parentID := by
  have hbelow := hdown.below hp
  rcases hcase with hkept | hacc
  · rw [hkept.tree]
    exact fun hmem => (hbelow _ hmem).mem.2 rfl
  obtain ⟨-, hhead, hchild, rfl, -, -, -, -⟩ := hacc
  cases voteStack with
  | nil => simp
  | cons next rest =>
    have hq := (isChain_cons_cons.mp hdown.chain).1 hp
    intro hmem
    rcases mem_cons.mp hmem with heq | hmem
    · exact hnext heq.symm
    -- it would be below its sibling
    have hb := hdown.of_cons.below hq.1 _ hmem
    obtain ⟨hpath, hne⟩ := (below_iff hq.2.1).mp hb
    have hself := self_mem_path hchild.1 hchild.2.1
    exact hne (child_unique hpath hself hq.2.2 (hchild.2.2.trans (hroot.trans hhead)))

/-- What every application of votes keeps, of the state and of what is left to do, the loop
    of `vote` keeps. It does not panic, the block it returns is in the tree that is left, and
    it stops only at a block that is not. -/
theorem voteLoop_rule {Inv : List Votes → Topological → RootedTree ID → ID → Bool → Prop}
    (hstep : ∀ {vote voteStack ts T newPreferred on n sb ts' T'},
      Inv (vote :: voteStack) ts T newPreferred on → Shape ts T →
      ts.params.betaVirtuous ≤ ts.params.betaRogue →
      Downward T ((vote :: voteStack).map Votes.parentID) →
      ts.blocks.lookup vote.parentID = some n → n.sb = some sb →
      Applied ts T vote.parentID n sb vote.votes (nextOf voteStack) ts' T' →
      (Kept ts T vote.parentID (sb.applyVotes n.shouldFalter vote.votes) ts' T' ∨
        Accepted ts T vote.parentID (sb.applyVotes n.shouldFalter vote.votes) ts' T') →
      Inv voteStack ts' T'
        (if on then (sb.applyVotes n.shouldFalter vote.votes).preference else newPreferred)
        (on && decide (nextOf voteStack = (sb.applyVotes n.shouldFalter vote.votes).preference)))
    (order : RangeOrder ID) (voteStack : List Votes) (h : Shape ts T)
    (hle : ts.params.betaVirtuous ≤ ts.params.betaRogue) (htail : Tailing ts T)
    (hdown : Downward T (voteStack.map Votes.parentID)) {newPreferred : ID} {on : Bool}
    (hinv : Inv voteStack ts T newPreferred on) (hmem : newPreferred ∈ T.nodes)
    (hon : on = false → T.root ∉ voteStack.map Votes.parentID) :
    ∃ ts' T' preferred, voteLoop order voteStack ts newPreferred on = some (ts', preferred) ∧
      Shape ts' T' ∧ ts'.params = ts.params ∧ Tailing ts' T' ∧ preferred ∈ T'.nodes ∧
      ∃ rest on', Inv rest ts' T' preferred on' ∧
        ∀ vote ∈ rest.head?, ts'.blocks.lookup vote.parentID = none := by
  induction voteStack generalizing ts T newPreferred on with
  | nil => exact ⟨ts, T, newPreferred, rfl, h, rfl, htail, hmem, [], on, hinv, by simp⟩
  | cons vote voteStack ih =>
    cases hn : ts.blocks.lookup vote.parentID with
    | none =>
      refine ⟨ts, T, newPreferred, ?_, h, rfl, htail, hmem, _, on, hinv, ?_⟩
      · rw [voteLoop.eq_def]
        dsimp only
        rw [hn]
      · rintro _ ⟨⟩
        exact hn
    | some n =>
      have hp : vote.parentID ∈ T.nodes := h.mem_iff.mpr ⟨n, hn⟩
      obtain ⟨c, hc⟩ := hdown.child _ mem_cons_self hp
      obtain ⟨sb, hsb⟩ := h.exists_sb hn hc
      set sb' := sb.applyVotes n.shouldFalter vote.votes with hsb'
      obtain ⟨ts', T', hrun, happ, hcase⟩ := voteOn_spec h hle order hn hsb (nextOf voteStack)
      have hdown' : Downward T' (voteStack.map Votes.parentID) := by
        rcases hcase with hkept | hacc
        · rw [hkept.tree]
          exact hdown.of_cons
        rw [hacc.tree]
        exact hdown.of_cons.subtree _ _
      -- a block is accepted only on the preferred branch
      have hmem' : (if on then sb'.preference else newPreferred) ∈ T'.nodes := by
        have hchild := h.isChild_applyVotes hle hn hsb vote.votes
        rcases hcase with hkept | hacc
        · rw [hkept.tree]
          split
          · exact hchild.1
          · exact hmem
        have htrue : on = true := by
          by_contra hoff
          refine hon (Bool.eq_false_iff.mpr hoff) ?_
          rw [h.root_eq, hacc.head_eq]
          exact mem_cons_self
        rw [htrue, if_pos rfl, hacc.tree, mem_subtree]
        exact self_mem_path hacc.isChild.1 hacc.isChild.2.1
      have hon' : (on && decide (nextOf voteStack = sb'.preference)) = false →
          T'.root ∉ voteStack.map Votes.parentID := by
        intro hoff
        by_cases hnext : nextOf voteStack = sb'.preference
        · have hoff : on = false := by simpa [hnext] using hoff
          rcases hcase with hkept | hacc
          · rw [hkept.tree]
            exact fun hroot => hon hoff (mem_cons_of_mem _ hroot)
          refine absurd ?_ (hon hoff)
          rw [h.root_eq, hacc.head_eq]
          exact mem_cons_self
        · exact root_notMem_of_off hp h.root_eq hdown hcase hnext
      have hinv' := hstep hinv h hle hdown hn hsb happ hcase
      obtain ⟨ts'', T'', preferred, hloop, hshape, hparams, hrest⟩ :=
        ih happ.shape (by rw [happ.params]; exact hle) (htail.applied happ hcase) hdown' hinv'
          hmem' hon'
      refine ⟨ts'', T'', preferred, ?_, hshape, hparams.trans happ.params, hrest⟩
      rw [voteLoop_cons order voteStack hn, hrun]
      exact hloop

/-! ## The whole poll -/

/-- The two states differ at most in their preferences and instances. -/
structure Quiet (ts ts' : Topological) : Prop where
  params : ts'.params = ts.params
  head : ts'.head = ts.head
  height : ts'.height = ts.height
  decidables : ts'.decidables = ts.decidables
  blk : ∀ id, (ts'.blocks.lookup id).map SnowmanBlock.blk = (ts.blocks.lookup id).map SnowmanBlock.blk

/-- An empty stack flags the head, and nothing else changes. -/
theorem vote_nil (h : Shape ts T) (order : RangeOrder ID) :
    ∃ blocks, ts.vote order [] = some ({ ts with blocks }, ts.tail) ∧ Shape { ts with blocks } T ∧
      ∀ id, blocks.lookup id = (ts.blocks.lookup id).map fun n =>
        if id = ts.head then { n with shouldFalter := true } else n := by
  obtain ⟨n, hn⟩ := h.mem_iff.mp (h.root_eq ▸ T.root_mem)
  have hlookup : ∀ id, (ts.blocks.insert ts.head { n with shouldFalter := true }).lookup id =
      (ts.blocks.lookup id).map fun n =>
        if id = ts.head then { n with shouldFalter := true } else n :=
    Finmap.lookup_insert_map (fun n => { n with shouldFalter := true }) hn
  refine ⟨_, by rw [vote, hn]; rfl, ?_, hlookup⟩
  refine h.mapNodes rfl rfl rfl hlookup fun id m hm => ?_
  have hsound := h.sound id m hm
  split
  · exact ⟨rfl, rfl, hsound⟩
  · exact ⟨rfl, rfl, hsound⟩

/-- `RecordPoll` after `vote`: only the preferred path is left to update. -/
theorem recordPoll_of_vote {pops order : RangeOrder ID} {stack : List Votes} {ts2 : Topological}
    {preferred : ID}
    (hstack : Topological.voteStack { ts with pollNumber := ts.pollNumber + 1 } pops votes =
      some stack)
    (hvote : Topological.vote { ts with pollNumber := ts.pollNumber + 1 } order stack =
      some (ts2, preferred)) (h : Shape ts2 T)
    (hle : ts2.params.betaVirtuous ≤ ts2.params.betaRogue) (htail : Tailing ts2 T)
    (hpref : preferred ∈ T.nodes) :
    ∃ tail preferredIDs, ts.recordPoll pops order votes = some { ts2 with tail, preferredIDs } ∧
      Tailed { ts2 with tail, preferredIDs } T ∧
      (preferred ∈ ts2.preferredIDs ∧ tail = ts2.tail ∨ preferred ∉ ts2.preferredIDs ∧
        ∃ l, Follows ts2 preferred l ∧ tail = l.getLastD preferred) := by
  obtain ⟨tail, preferredIDs, hprefer, hrest⟩ := prefer_spec h hle htail hpref
  refine ⟨tail, preferredIDs, ?_, hrest⟩
  rw [recordPoll]
  simp only [Option.bind_eq_bind]
  rw [hstack, Option.bind_some, hvote, Option.bind_some]
  exact hprefer

/-- What quiet changes and every application of votes keep, `RecordPoll` keeps; and it does
    not panic. -/
theorem recordPoll_rule {Inv : Topological → RootedTree ID → Prop}
    (hquiet : ∀ {ts ts' T}, Inv ts T → Quiet ts ts' → Inv ts' T)
    (hstep : ∀ {ts T p n sb votes nextID ts' T'}, Inv ts T → Shape ts T →
      ts.blocks.lookup p = some n → n.sb = some sb → Applied ts T p n sb votes nextID ts' T' →
      (Kept ts T p (sb.applyVotes n.shouldFalter votes) ts' T' ∨
        Accepted ts T p (sb.applyVotes n.shouldFalter votes) ts' T') → Inv ts' T')
    (pops order : RangeOrder ID) {votes : Bag} (h : Shape ts T) (hparams : ts.params.Valid)
    (hlen : (votes.len : Int) ≤ ts.params.k) (hinv : Inv ts T) (htail : Tailed ts T) :
    ∃ ts' T', ts.recordPoll pops order votes = some ts' ∧ Shape ts' T' ∧
      ts'.params = ts.params ∧ Inv ts' T' ∧ Tailed ts' T' := by
  have hle := hparams.betaVirtuous_le
  set ts1 : Topological := { ts with pollNumber := ts.pollNumber + 1 } with hts1
  have hshape1 : Shape ts1 T := { h with }
  have htail1 : Tailed ts1 T := { htail with }
  have hinv1 : Inv ts1 T := hquiet hinv ⟨rfl, rfl, rfl, rfl, fun _ => rfl⟩
  obtain ⟨stack, hstack, hbranch, -⟩ := voteStack_spec hshape1 hparams hlen pops
  -- what `vote` leaves
  have hvote : ∃ ts2 T2 preferred, ts1.vote order stack = some (ts2, preferred) ∧ Shape ts2 T2 ∧
      ts2.params = ts.params ∧ Inv ts2 T2 ∧ Tailing ts2 T2 ∧ preferred ∈ T2.nodes := by
    cases stack with
    | nil =>
      obtain ⟨blocks, hrun, hshape2, hlookup⟩ := vote_nil hshape1 order
      refine ⟨_, T, _, hrun, hshape2, rfl, hquiet hinv1 ⟨rfl, rfl, rfl, rfl, fun id => ?_⟩,
        { htail1.tailing with }, htail.tail_mem⟩
      rw [hlookup, Option.map_map]
      congr 1
      funext m
      split <;> rfl
    | cons vote rest =>
      have hrule := @voteLoop_rule ts1 T (fun _ ts T _ _ => Inv ts T)
        (fun h hshape _ _ hn hsb happ hcase => hstep h hshape hn hsb happ hcase)
      obtain ⟨ts2, T2, preferred, hrun, hshape2, hparams2, htail2, hmem, -, -, hinv2, -⟩ :=
        hrule order (vote :: rest) hshape1 hle htail1.tailing
          (hbranch.downward hparams.alpha_pos) hinv1
          (show ts1.head ∈ T.nodes from hshape1.root_eq ▸ T.root_mem)
          (fun hoff : true = false => Bool.noConfusion hoff)
      exact ⟨ts2, T2, preferred, hrun, hshape2, hparams2, hinv2, htail2, hmem⟩
  obtain ⟨ts2, T2, preferred, hrun, hshape2, hparams2, hinv2, htail2, hmem⟩ := hvote
  obtain ⟨tail, preferredIDs, hpoll, htailed, -⟩ :=
    recordPoll_of_vote hstack hrun hshape2 (by rw [hparams2]; exact hle) htail2 hmem
  exact ⟨{ ts2 with tail, preferredIDs }, T2, hpoll, { hshape2 with }, hparams2,
    hquiet hinv2 ⟨rfl, rfl, rfl, rfl, fun _ => rfl⟩, htailed⟩

/-! ## The head -/

/-- The head is the root, or was accepted. -/
def Crowned (rootID : ID) (ts : Topological) : Prop :=
  ts.head = rootID ∨ ts.decidables.status ts.head = .accepted

theorem crowned_init (hinit : init params rootID rootHeight status = .ok ts) :
    Crowned rootID ts := by
  rw [init] at hinit
  split at hinit
  · cases hinit
  obtain rfl := Except.ok.inj hinit
  exact .inl rfl

section

variable (hhead : Crowned rootID ts) (h : Shape ts T)

include hhead h

/-- What `Add` does with a block other than the root, in terms of the tree. -/
theorem Crowned.add_cases (hroot : blk.id ≠ rootID) : (ts.add blk).1 = ts ∨ (blk.id ∉ T.nodes ∧
      (ts.add blk).1 = { ts with decidables := ts.decidables.reject blk.id }) ∨
    (blk.id ∉ T.nodes ∧ blk.parent ∈ T.nodes ∧ (ts.decidables.status blk.id).decided = false ∧
      ∃ parentNode, ts.blocks.lookup blk.parent = some parentNode ∧
        (ts.add blk).1 = ts.extend parentNode blk) := by
  have hne : ts.decided blk = false → blk.id ≠ ts.head := by
    intro hdec heq
    rcases hhead with hhead | hacc
    · exact hroot (heq.trans hhead)
    rw [decided, heq, hacc] at hdec
    cases hdec
  rcases ts.add_cases blk with ⟨-, hadd⟩ | ⟨hdec, hproc, -, hadd⟩ |
    ⟨hdec, hproc, parentNode, hn, hadd⟩
  · exact .inl (congrArg Prod.fst hadd)
  · exact .inr (.inl ⟨(h.fresh hdec hproc (hne hdec)).1, congrArg Prod.fst hadd⟩)
  · obtain ⟨hid, hst⟩ := h.fresh hdec hproc (hne hdec)
    exact .inr (.inr ⟨hid, h.mem_iff.mpr ⟨parentNode, hn⟩, hst, parentNode, hn,
      congrArg Prod.fst hadd⟩)

theorem Crowned.add (hroot : blk.id ≠ rootID) : Crowned rootID (ts.add blk).1 := by
  rcases hhead.add_cases h hroot with hadd | ⟨hid, hadd⟩ | ⟨-, -, -, parentNode, -, hadd⟩
  · rw [hadd]
    exact hhead
  · rw [hadd]
    have hne : ts.head ≠ blk.id := fun heq => hid (heq ▸ h.root_eq ▸ T.root_mem)
    exact hhead.imp_right fun hacc => (Function.update_of_ne hne ..).trans hacc
  rw [hadd]
  exact hhead

theorem Crowned.recordPoll (hparams : ts.params.Valid)
    (htail : Tailed ts T) {pops order : RangeOrder ID} (hlen : (votes.len : Int) ≤ ts.params.k)
    (hpoll : ts.recordPoll pops order votes = some ts') : Crowned rootID ts' := by
  have hrule := @recordPoll_rule ts T (fun ts _ => Crowned rootID ts)
    (fun hhead hquiet => by
      rw [Crowned, hquiet.head, hquiet.decidables]
      exact hhead)
    (fun hhead _ _ _ _ hcase => by
      rcases hcase with hkept | hacc
      · rw [Crowned, hkept.head, hkept.decidables]
        exact hhead
      obtain ⟨-, -, hchild, -, ⟨rejected, hdec, -, hrej⟩, hhead', -, -⟩ := hacc
      have hself := self_mem_path hchild.1 hchild.2.1
      refine .inr ?_
      rw [hhead', hdec,
        Decidables.status_rejectAll, if_neg fun hmem => ((hrej _).mp hmem).2.2 hself]
      exact Function.update_self ..)
  obtain ⟨ts'', -, hpoll', -, -, hcrowned, -⟩ := hrule pops order h hparams hlen hhead htail
  obtain rfl := Option.some.inj (hpoll.symm.trans hpoll')
  exact hcrowned

end

/-! ## Runs -/

/-- An operation on any block but the root, or any votes of at most `K` validators. -/
def Op.Bounded (rootID : ID) (ts : Topological) : Op → Prop
  | .add blk => blk.id ≠ rootID
  | .recordPoll _ _ votes => (votes.len : Int) ≤ ts.params.k

/-- What holds of every state of a run. -/
structure Regular (params : Parameters) (rootID : ID) (ts : Topological) : Prop where
  params_eq : ts.params = params
  crowned : Crowned rootID ts
  shape : ∃ T, Shape ts T ∧ Tailed ts T

theorem regular_init (hinit : init params rootID rootHeight status = .ok ts) :
    Regular params rootID ts :=
  ⟨(verify_of_init hinit).2, crowned_init hinit, _, shape_init hinit, tailed_init hinit⟩

theorem Regular.step (hvalid : params.Valid) (h : Regular params rootID ts) {op : Op}
    (hop : op.Bounded rootID ts) : ∃ ts', ts.step op = some ts' ∧ Regular params rootID ts' := by
  obtain ⟨rfl, hhead, T, hshape, htail⟩ := h
  cases op with
  | add blk =>
    refine ⟨_, rfl, ts.params_add blk, hhead.add hshape hop, ?_⟩
    rcases hhead.add_cases hshape hop with hadd | ⟨hid, hadd⟩ | ⟨hid, hp, hst, parentNode, hn, hadd⟩
    · rw [hadd]
      exact ⟨T, hshape, htail⟩
    · rw [hadd]
      exact ⟨T, hshape.reject hid, htail.tail_mem, htail.preferredIDs_eq⟩
    rw [hadd]
    exact ⟨_, hshape.extend hid hp hst hn, htail.extend hid hp parentNode⟩
  | recordPoll pops order votes =>
    have hrule := @recordPoll_rule ts T (fun _ _ => True) (fun _ _ => trivial)
      (fun _ _ _ _ _ _ => trivial)
    obtain ⟨ts', T', hpoll, hshape', hparams', -, htail'⟩ :=
      hrule pops order hshape hvalid hop trivial htail
    exact ⟨ts', hpoll, hparams', hhead.recordPoll hshape hvalid htail hop hpoll, T', hshape', htail'⟩

end Topological

end SavannahNode
