import SavannahNode.Native.BatchedVM

/-!
# The ancestors that are served

A response should be the longest chain of parents from the requested block that keeps to the
limits. `block.GetAncestors` alone serves such chains. The hand-over of the `proposervm` need
not: the blocks that were found are subtracted from the limit twice, the first block of the
inner virtual machine is not measured, the limits are cut to 32 bits, and a response that would
have exactly the maximal size is cut. The response is right exactly if no such size is met, and
the limits that are handed over admit the chains they should.

## Key results

* `BatchedVM.fetchLoop_serves` — the loop of `block.GetAncestors`.
* `BatchedVM.VM.postForkLoop_spec` — where the loop through the post-fork blocks ends.
* `BatchedVM.VM.getAncestors_serves` — exactly when `GetAncestors` is right.
* `BatchedVM.exists_bad_handOver` — what goes wrong at the hand-over.
-/

namespace SavannahNode.BatchedVM

/-- Where a walk to the ancestors stands: at an ID that may be of a post-fork block, or at one
    of the inner virtual machine. -/
inductive Cursor where
  | outer (blkID : ID)
  | inner (blkID : ID)
deriving DecidableEq

namespace VM

/-- The block at a cursor, and the cursor of its parent. -/
def ancestor (vm : VM) : Cursor → Option (Blk × Cursor)
  | .outer blkID =>
    match vm.getStatelessBlk blkID with
    | .ok blk => some (blk, .outer blk.parent)
    | .error _ => (vm.getInnerBlk blkID).toOption.map fun blk => (blk, .inner blk.parent)
  | .inner blkID => (vm.getInnerBlk blkID).toOption.map fun blk => (blk, .inner blk.parent)

/-- A chain of parents. -/
inductive Path (vm : VM) : Cursor → List Blk → Cursor → Prop
  | nil {c : Cursor} : Path vm c [] c
  | cons {c c' c'' : Cursor} {blks : List Blk} {blk : Blk}
    (hblk : vm.ancestor c = some (blk, c')) (h : Path vm c' blks c'') : Path vm c (blk :: blks) c''

end VM

/-- The size of a response. -/
def total : List Blk → Int
  | [] => 0
  | blk :: blks => blk.bytes.length + intLen + total blks

theorem total_append (blks blks' : List Blk) : total (blks ++ blks') = total blks + total blks' := by
  induction blks with
  | nil => simp [total]
  | cons b blks ih =>
    rw [List.cons_append, total, total, ih]
    omega

theorem total_snoc (blks : List Blk) (blk : Blk) :
    total (blks ++ [blk]) = total blks + blk.bytes.length + intLen := by
  rw [total_append]
  simp [total]
  omega

/-- Each block adds to the size. -/
theorem length_le_total (blks : List Blk) : (blks.length : Int) ≤ total blks := by
  induction blks with
  | nil => exact Int.le_refl 0
  | cons b blks ih =>
    simp only [total, intLen, List.length_cons]
    omega

/-- The chain keeps to the limits; the first block may have any size. -/
def Limits.Admits (limits : Limits) (blks : List Blk) : Prop :=
  blks.length ≤ limits.maxBlocksNum ∧ (blks.length = 1 ∨ total blks ≤ limits.maxBlocksSize)

/-- The longest chain of parents that keeps to the limits; the first block is served whatever
    its size. -/
structure Serves (vm : VM) (limits : Limits) (start : Cursor) (blks : List Blk) : Prop where
  /-- The first block is the requested one, and each next one is the parent of the one before. -/
  path : ∃ c, vm.Path start blks c ∧
    -- the next ancestor is not available or would break a limit
    ∀ blk c', vm.ancestor c = some (blk, c') →
      limits.maxBlocksNum ≤ blks.length ∨ limits.maxBlocksSize < total (blks ++ [blk])
  nonempty : blks ≠ []
  num : blks.length ≤ limits.maxBlocksNum
  size : limits.maxBlocksSize < total blks → blks.length = 1

variable {vm : VM} {limits : Limits} {start : Cursor} {done : List Blk} {blk : Blk} {blkID : ID}

namespace VM.Path

theorem append {c c' c'' : Cursor} {blks blks' : List Blk} (h : vm.Path c blks c')
    (h' : vm.Path c' blks' c'') : vm.Path c (blks ++ blks') c'' := by
  induction h with
  | nil => exact h'
  | cons hblk _ ih => exact .cons hblk (ih h')

theorem snoc {c c' c'' : Cursor} {blks : List Blk} (h : vm.Path c blks c')
    (hblk : vm.ancestor c' = some (blk, c'')) : vm.Path c (blks ++ [blk]) c'' :=
  h.append (.cons hblk .nil)

/-- A block has one parent: of two chains from one block the shorter is the start of the other. -/
theorem split {c c' c'' : Cursor} {blks blks' : List Blk} (h : vm.Path c blks c')
    (h' : vm.Path c blks' c'') (hle : blks.length ≤ blks'.length) :
    ∃ rest, blks' = blks ++ rest ∧ vm.Path c' rest c'' := by
  induction h generalizing blks' with
  | nil => exact ⟨blks', rfl, h'⟩
  | cons hblk _ ih =>
    cases h' with
    | nil => simp at hle
    | cons hblk' h' =>
      rw [hblk] at hblk'
      cases hblk'
      obtain ⟨rest, rfl, hrest⟩ := ih h' (Nat.le_of_succ_le_succ hle)
      exact ⟨rest, rfl, hrest⟩

theorem unique {c c' c'' : Cursor} {blks blks' : List Blk} (h : vm.Path c blks c')
    (h' : vm.Path c blks' c'') (hlen : blks.length = blks'.length) : blks' = blks ∧ c'' = c' := by
  obtain ⟨rest, rfl, hrest⟩ := h.split h' hlen.le
  obtain rfl : rest = [] := by simpa using hlen
  cases hrest
  exact ⟨List.append_nil _, rfl⟩

end VM.Path

/-- A chain that is served is the longest one: just its parts keep to the limits. -/
theorem Serves.admits_iff {blks blks' : List Blk} {c : Cursor} (h : Serves vm limits start blks)
    (hpath : vm.Path start blks' c) (hne : blks' ≠ []) :
    limits.Admits blks' ↔ blks'.length ≤ blks.length := by
  obtain ⟨c', hserved, hnext⟩ := h.path
  have hpos := List.length_pos_of_ne_nil hne
  have hnum := h.num
  have hsize := h.size
  constructor
  · rintro ⟨hlen, htotal⟩
    by_contra hgt
    obtain ⟨rest, rfl, hrest⟩ := hserved.split hpath (by omega)
    cases hrest with
    | nil => simp at hgt
    | @cons _ d _ rest blk hblk _ =>
      have hserves := List.length_pos_of_ne_nil h.nonempty
      have hrest := length_le_total rest
      have happend : blks ++ blk :: rest = blks ++ [blk] ++ rest := by simp
      rw [happend, total_append] at htotal
      simp only [List.length_append, List.length_cons] at hlen htotal
      rcases hnext blk d hblk with hfull | hlarge
      · omega
      · simp only [List.length_nil] at htotal
        omega
  · intro hle
    obtain ⟨rest, rfl, -⟩ := hpath.split hserved hle
    have hrest := length_le_total rest
    simp only [List.length_append, total_append] at hnum hsize
    refine ⟨by omega, ?_⟩
    omega

/-! ## block.GetAncestors -/

/-- The loop of `block.GetAncestors` prolongs a chain until it meets a limit. -/
theorem fetchLoop_serves (htime : ∀ i, vm.innerClock i < limits.maxBlocksRetrivalTime)
    (fuel numFetched : Nat) (hpath : vm.Path start done (.inner blk.parent))
    (hlen : done.length = numFetched) (hpos : 0 < numFetched)
    (hnum : (numFetched : Int) ≤ limits.maxBlocksNum)
    (hsize : limits.maxBlocksSize < total done → done.length = 1)
    (hfuel : limits.maxBlocksNum ≤ (numFetched : Int) + fuel) :
    ∃ blks, fetchLoop vm.getInnerBlk vm.innerClock limits fuel numFetched blk (done.map Blk.bytes)
      (total done) = blks.map Blk.bytes ∧ Serves vm limits start blks := by
  have hnonempty : done ≠ [] := by
    rintro rfl
    simp at hlen
    omega
  induction fuel generalizing done numFetched blk with
  | zero =>
    refine ⟨done, rfl, ⟨_, hpath, fun _ _ _ => .inl ?_⟩, hnonempty, by omega, hsize⟩
    omega
  | succ fuel ih =>
    rw [fetchLoop]
    by_cases hlimit : (numFetched : Int) < limits.maxBlocksNum
    · rw [if_pos ⟨hlimit, htime numFetched⟩]
      cases hget : vm.getInnerBlk blk.parent with
      | error e =>
        refine ⟨done, rfl, ⟨_, hpath, fun blk' c' h => ?_⟩, hnonempty, by omega, hsize⟩
        simp [VM.ancestor, hget, Except.toOption] at h
      | ok blk' =>
        have hancestor : vm.ancestor (.inner blk.parent) = some (blk', .inner blk'.parent) := by
          simp [VM.ancestor, hget, Except.toOption]
        have htotal := total_snoc done blk'
        dsimp only
        rw [← htotal]
        split
        · have hmap : done.map Blk.bytes ++ [blk'.bytes] = (done ++ [blk']).map Blk.bytes := by simp
          rw [hmap]
          refine ih (numFetched + 1) (hpath.snoc hancestor) (by simp [hlen]) (by omega) (by omega)
            (fun hlarge => ?_) (by omega) (by simp)
          omega
        refine ⟨done, rfl, ⟨_, hpath, fun blk'' c'' h => .inr ?_⟩, hnonempty, by omega, hsize⟩
        rw [hancestor] at h
        cases h
        omega
    · rw [if_neg fun h => hlimit h.1]
      refine ⟨done, rfl, ⟨_, hpath, fun _ _ _ => .inl ?_⟩, hnonempty, by omega, hsize⟩
      omega

/-- `block.GetAncestors` of a block that is known serves a chain. -/
theorem getAncestorsLocal_serves (limits : Limits) (htime : ∀ i, vm.innerClock i < limits.maxBlocksRetrivalTime)
    (hnum : 1 ≤ limits.maxBlocksNum) (hblk : vm.getInnerBlk blkID = .ok blk)
    (hstart : vm.ancestor start = some (blk, .inner blk.parent)) :
    ∃ blks, getAncestorsLocal vm.getInnerBlk vm.innerClock blkID limits = .ok (blks.map Blk.bytes) ∧
      Serves vm limits start blks := by
  have htotal : (blk.bytes.length : Int) + intLen = total [blk] := by simp [total]
  obtain ⟨blks, hfetch, hserves⟩ := fetchLoop_serves htime limits.maxBlocksNum.toNat 1
    (VM.Path.nil.snoc hstart) (by simp) (by omega) (by omega) (by simp) (by omega)
  refine ⟨blks, ?_, hserves⟩
  rw [getAncestorsLocal, hblk]
  dsimp only
  rw [if_neg (by omega), htotal]
  exact congrArg Except.ok hfetch

/-! ## The proposervm -/

namespace VM

/-- The limits that are handed over after some post-fork blocks. -/
def handed (vm : VM) (limits : Limits) (done : List Blk) : Limits :=
  { maxBlocksNum := toInt32 (limits.maxBlocksNum - done.length - done.length)
    maxBlocksSize := toInt32 (limits.maxBlocksSize - total done)
    maxBlocksRetrivalTime := limits.maxBlocksRetrivalTime - vm.handOver }

/-- The loop goes on after some post-fork blocks. -/
structure Continues (vm : VM) (limits : Limits) (blkID : ID) (done : List Blk) (id : ID) : Prop where
  path : vm.Path (.outer blkID) done (.outer id)
  num : done.length < limits.maxBlocksNum
  size : done.length ≤ 1 ∨ total done < limits.maxBlocksSize

/-- Wherever the fork is hit, the limits that are handed over admit a block, and just the chains
    with which the response keeps to its own limits. -/
def HandsOver (vm : VM) (limits : Limits) (blkID : ID) : Prop :=
  ∀ done id e blk, vm.Continues limits blkID done id → vm.getStatelessBlk id = .error e →
    vm.getInnerBlk id = .ok blk → 1 ≤ (vm.handed limits done).maxBlocksNum ∧
      ∀ blks c, vm.Path (.inner id) blks c → blks ≠ [] →
        ((vm.handed limits done).Admits blks ↔ limits.Admits (done ++ blks))

/-- No chain of two or more post-fork blocks has exactly the maximal size. -/
def NoExactSize (vm : VM) (limits : Limits) (blkID : ID) : Prop :=
  ∀ blks id, vm.Path (.outer blkID) blks (.outer id) → 2 ≤ blks.length →
    blks.length ≤ limits.maxBlocksNum → total blks ≠ limits.maxBlocksSize

theorem ancestor_of_ok {id : ID} (h : vm.getStatelessBlk id = .ok blk) :
    vm.ancestor (.outer id) = some (blk, .outer blk.parent) := by
  simp [ancestor, h]

theorem ancestor_of_error {id : ID} {e : GetErr} (h : vm.getStatelessBlk id = .error e) :
    vm.ancestor (.outer id) = vm.ancestor (.inner id) := by
  simp [ancestor, h]

/-- Where the fork is hit, the walk goes on in the inner virtual machine. -/
theorem Path.outer_iff {id : ID} {e : GetErr} {blks : List Blk} {c : Cursor}
    (h : vm.getStatelessBlk id = .error e) (hne : blks ≠ []) :
    vm.Path (.outer id) blks c ↔ vm.Path (.inner id) blks c := by
  have hancestor := ancestor_of_error h
  constructor
  · intro hpath
    cases hpath with
    | nil => exact absurd rfl hne
    | cons hblk hpath => exact .cons (hancestor ▸ hblk) hpath
  · intro hpath
    cases hpath with
    | nil => exact absurd rfl hne
    | cons hblk hpath => exact .cons (hancestor ▸ hblk) hpath

/-- After the inner virtual machine there is no post-fork block. -/
theorem Path.not_outer {id id' : ID} {blks : List Blk} (h : vm.Path (.inner id) blks (.outer id')) :
    False := by
  generalize hc : Cursor.inner id = c at h
  generalize hc' : Cursor.outer id' = c' at h
  induction h generalizing id with
  | nil =>
    subst hc
    cases hc'
  | cons hblk _ ih =>
    subst hc
    obtain ⟨blk, -, hblk⟩ := Option.map_eq_some_iff.mp hblk
    cases hblk
    exact ih rfl hc'

/-- The post-fork blocks fill the response: no further one is allowed, or the next one is
    cut. -/
structure Fills (vm : VM) (limits : Limits) (blkID : ID) (blks : List Blk) (id : ID) : Prop where
  path : vm.Path (.outer blkID) blks (.outer id)
  nonempty : blks ≠ []
  num : blks.length ≤ limits.maxBlocksNum
  size : blks.length = 1 ∨ total blks < limits.maxBlocksSize
  full : limits.maxBlocksNum = blks.length ∨
    ∃ blk, vm.getStatelessBlk id = .ok blk ∧ limits.maxBlocksSize ≤ total (blks ++ [blk])

/-- The loop ends with a response that is full, or where a block is not a post-fork block. -/
theorem postForkLoop_spec (htime : ∀ i, vm.clock i < limits.maxBlocksRetrivalTime) (fuel : Nat)
    {id : ID} (h : vm.Continues limits blkID done id)
    (hfuel : limits.maxBlocksNum < (done.length : Int) + fuel) :
    ∃ blks id', (vm.Fills limits blkID blks id' ∧
        vm.postForkLoop fuel id { limits with maxBlocksNum := limits.maxBlocksNum - done.length }
          (done.map Blk.bytes) (total done) = .ok (blks.map Blk.bytes)) ∨
      vm.Continues limits blkID blks id' ∧ (∃ e, vm.getStatelessBlk id' = .error e) ∧
        vm.postForkLoop fuel id { limits with maxBlocksNum := limits.maxBlocksNum - done.length }
          (done.map Blk.bytes) (total done) = vm.preFork id'
            { limits with maxBlocksNum := limits.maxBlocksNum - blks.length } (blks.map Blk.bytes)
            (total blks) := by
  -- on the fuel; each turn ends the response or adds a block within the limits
  induction fuel generalizing done id with
  | zero =>
    have := h.num
    omega
  | succ fuel ih =>
    have hnum := h.num
    rw [postForkLoop]
    cases hget : vm.getStatelessBlk id with
    | error e => exact ⟨done, id, .inr ⟨h, ⟨e, hget⟩, rfl⟩⟩
    | ok blk =>
      have hpath := h.path.snoc (ancestor_of_ok hget)
      have htotal : total done + (intLen + blk.bytes.length) = total (done ++ [blk]) := by
        rw [total_snoc]
        omega
      have hmap : done.map Blk.bytes ++ [blk.bytes] = (done ++ [blk]).map Blk.bytes := by simp
      have hlen : ((done ++ [blk]).length : Int) = done.length + 1 := by simp
      dsimp only
      rw [htotal, hmap]
      split
      · -- the block would be too much
        rename_i hlarge
        have hpos : 0 < done.length := by simpa using hlarge.1
        have hintime := htime (done.map Blk.bytes).length
        have hsize := h.size
        exact ⟨done, id, .inl ⟨⟨h.path, List.ne_nil_of_length_pos hpos, by omega, by omega,
          .inr ⟨blk, hget, by omega⟩⟩, rfl⟩⟩
      rename_i hfits
      have hsize : (done ++ [blk]).length = 1 ∨ total (done ++ [blk]) < limits.maxBlocksSize := by
        rcases Nat.eq_zero_or_pos done.length with hzero | hpos
        · exact .inl (by simp [hzero])
        · refine .inr ?_
          by_contra hnot
          exact hfits ⟨by simpa using hpos, .inl (by omega)⟩
      split
      · exact ⟨done ++ [blk], blk.parent, .inl ⟨⟨hpath, by simp, by omega, hsize, .inl (by omega)⟩,
          rfl⟩⟩
      have hcount : limits.maxBlocksNum - done.length - 1 =
          limits.maxBlocksNum - (done ++ [blk]).length := by omega
      rw [hcount]
      exact ih ⟨hpath, by omega, hsize.imp_left Nat.le_of_eq⟩ (by omega)

/-- A full response is right unless the block that was cut would have met the maximal size. -/
theorem Fills.serves_iff {blks : List Blk} {id : ID} (h : vm.Fills limits blkID blks id) :
    Serves vm limits (.outer blkID) blks ↔
      vm.NoExactSize limits blkID ∧ vm.HandsOver limits blkID := by
  obtain ⟨hpath, hnonempty, hnum, hsize, hfull⟩ := h
  have hpos := List.length_pos_of_ne_nil hnonempty
  -- where a shorter chain ends there is a post-fork block
  have hnext : ∀ done id' e, vm.Path (.outer blkID) done (.outer id') →
      done.length < blks.length → vm.getStatelessBlk id' ≠ .error e := by
    intro done id' e hdone hlt herror
    obtain ⟨rest, rfl, hrest⟩ := hdone.split hpath hlt.le
    have hne : rest ≠ [] := by
      rintro rfl
      simp at hlt
    exact ((Path.outer_iff herror hne).mp hrest).not_outer
  have hover : vm.HandsOver limits blkID := by
    intro done id' e blk hdone herror hinner
    have hnum' := hdone.num
    rcases Nat.lt_or_ge done.length blks.length with hlt | hge
    · exact absurd herror (hnext done id' e hdone.path hlt)
    rcases hfull with hfull | ⟨next, hget, hlarge⟩
    · omega
    obtain ⟨rest, rfl, hrest⟩ := hpath.split hdone.path hge
    cases hrest with
    | nil =>
      rw [hget] at herror
      cases herror
    | @cons _ _ _ rest b hb _ =>
      -- the block that was cut is too large for every longer chain
      rw [ancestor_of_ok hget] at hb
      cases hb
      have hsize' := hdone.size
      have hrest' := length_le_total rest
      have happend : blks ++ next :: rest = blks ++ [next] ++ rest := by simp
      rw [happend, total_append] at hsize'
      simp only [List.length_append, List.length_cons] at hsize'
      omega
  constructor
  · intro hserves
    refine ⟨fun blks' id' hpath' htwo hnum' heq => ?_, hover⟩
    have hle := (hserves.admits_iff hpath' (List.ne_nil_of_length_pos (by omega))).mp
      ⟨hnum', .inr heq.le⟩
    obtain ⟨rest, rfl, -⟩ := hpath'.split hpath hle
    have := length_le_total rest
    simp only [List.length_append, total_append] at hsize
    omega
  · rintro ⟨hexact, -⟩
    refine ⟨⟨_, hpath, fun blk c' hblk => ?_⟩, hnonempty, hnum, fun hlarge => by omega⟩
    rcases hfull with hfull | ⟨next, hget, hlarge⟩
    · exact .inl hfull.le
    rw [ancestor_of_ok hget] at hblk
    cases hblk
    rcases lt_or_ge (blks.length : Int) limits.maxBlocksNum with hlt | hge
    · refine .inr (lt_of_le_of_ne hlarge (Ne.symm ?_))
      exact hexact _ _ (hpath.snoc (ancestor_of_ok hget)) (by simp; omega) (by simp; omega)
    · exact .inl hge

/-- A response that ends before an ancestor that is not available. -/
theorem Continues.serves_of_none {id : ID} (h : vm.Continues limits blkID done id)
    (hne : done ≠ []) (hnone : vm.ancestor (.outer id) = none) :
    Serves vm limits (.outer blkID) done := by
  refine ⟨⟨_, h.path, fun blk c' hblk => ?_⟩, hne, h.num.le, fun hlarge => ?_⟩
  · rw [hnone] at hblk
    cases hblk
  · have hpos := List.length_pos_of_ne_nil hne
    have hsize := h.size
    omega

/-- Where the fork is hit, the conditions are about that point only. -/
theorem Continues.conditions_iff {id : ID} {e : GetErr} (h : vm.Continues limits blkID done id)
    (herror : vm.getStatelessBlk id = .error e) :
    vm.NoExactSize limits blkID ∧ vm.HandsOver limits blkID ↔
      ∀ blk, vm.getInnerBlk id = .ok blk → 1 ≤ (vm.handed limits done).maxBlocksNum ∧
        ∀ blks c, vm.Path (.inner id) blks c → blks ≠ [] →
          ((vm.handed limits done).Admits blks ↔ limits.Admits (done ++ blks)) := by
  -- no chain of post-fork blocks is longer
  have hlongest : ∀ {blks id'}, vm.Path (.outer blkID) blks (.outer id') →
      ∃ rest, done = blks ++ rest ∧ vm.Path (.outer id') rest (.outer id) := by
    intro blks id' hpath
    rcases Nat.lt_or_ge done.length blks.length with hgt | hle
    swap
    · exact hpath.split h.path hle
    obtain ⟨rest, rfl, hrest⟩ := h.path.split hpath hgt.le
    have hne : rest ≠ [] := by
      rintro rfl
      simp at hgt
    exact absurd ((Path.outer_iff herror hne).mp hrest) fun h => h.not_outer
  constructor
  · rintro ⟨-, hover⟩ blk hblk
    exact hover done id e blk h herror hblk
  intro hpoint
  refine ⟨fun blks id' hpath htwo _ heq => ?_, fun done' id' e' blk hdone herror' hblk => ?_⟩
  · obtain ⟨rest, rfl, -⟩ := hlongest hpath
    have hsize := h.size
    have := length_le_total rest
    simp only [List.length_append, total_append] at hsize
    omega
  · obtain ⟨rest, rfl, hrest⟩ := hlongest hdone.path
    by_cases hne : rest = []
    · subst hne
      cases hrest
      rw [List.append_nil] at hpoint
      exact hpoint blk hblk
    · exact absurd ((Path.outer_iff herror' hne).mp hrest) fun h => h.not_outer

/-- What the inner virtual machine serves is right if the limits that were handed over admit the
    same chains. -/
theorem serves_append_iff {id : ID} {e : GetErr} {blks : List Blk}
    (h : vm.Continues limits blkID done id) (herror : vm.getStatelessBlk id = .error e)
    (hserves : Serves vm (vm.handed limits done) (.inner id) blks) :
    Serves vm limits (.outer blkID) (done ++ blks) ↔
      ∀ blks' c, vm.Path (.inner id) blks' c → blks' ≠ [] →
        ((vm.handed limits done).Admits blks' ↔ limits.Admits (done ++ blks')) := by
  have hjoin : ∀ {blks c}, vm.Path (.inner id) blks c → blks ≠ [] →
      vm.Path (.outer blkID) (done ++ blks) c := fun hpath hne =>
    h.path.append ((Path.outer_iff herror hne).mpr hpath)
  constructor
  · intro hright blks' c hpath hne
    rw [hserves.admits_iff hpath hne, hright.admits_iff (hjoin hpath hne) (by simp [hne])]
    simp
  intro hsame
  obtain ⟨c, hpath, -⟩ := hserves.path
  have hpos := List.length_pos_of_ne_nil hserves.nonempty
  obtain ⟨hnum, hsize⟩ := (hsame blks c hpath hserves.nonempty).mp
    ((hserves.admits_iff hpath hserves.nonempty).mpr le_rfl)
  refine ⟨⟨c, hjoin hpath hserves.nonempty, fun blk c' hblk => ?_⟩, by simp [hserves.nonempty], hnum,
    fun hlarge => by omega⟩
  -- a longer chain is not admitted
  have hnot : ¬limits.Admits (done ++ (blks ++ [blk])) := by
    rw [← hsame _ c' (hpath.snoc hblk) (by simp), hserves.admits_iff (hpath.snoc hblk) (by simp)]
    simp
  by_contra hadmits
  rw [not_or] at hadmits
  refine hnot ⟨?_, .inr ?_⟩
  · simp at hadmits ⊢
    omega
  · rw [← List.append_assoc]
    omega

/-- Where the inner virtual machine has no block, the post-fork blocks are the response. -/
theorem preFork_of_error {e : GetErr} {res : List Bytes} {n : Int} (hres : res ≠ [])
    (hget : vm.getInnerBlk blkID = .error e) : vm.preFork blkID limits res n = .ok res := by
  rw [preFork, innerGetAncestors, getAncestorsLocal, hget]
  cases e with
  | notFound => exact congrArg Except.ok (List.append_nil res)
  | other => exact if_neg (fun h => hres (List.length_eq_zero_iff.mp h))

/-- Where it has one, it is asked with the limits that are handed over. -/
theorem preFork_of_ok {id : ID} {innerBytes : List Bytes}
    (h : getAncestorsLocal vm.getInnerBlk vm.innerClock id (vm.handed limits done) = .ok innerBytes) :
    vm.preFork id { limits with maxBlocksNum := limits.maxBlocksNum - done.length }
      (done.map Blk.bytes) (total done) = .ok (done.map Blk.bytes ++ innerBytes) := by
  rw [handed] at h
  simp only [preFork, innerGetAncestors, List.length_map, h]

theorem preFork_of_panic {id : ID}
    (h : getAncestorsLocal vm.getInnerBlk vm.innerClock id (vm.handed limits done) = .error .panic) :
    vm.preFork id { limits with maxBlocksNum := limits.maxBlocksNum - done.length }
      (done.map Blk.bytes) (total done) = .error .panic := by
  rw [handed] at h
  simp only [preFork, innerGetAncestors, List.length_map, h]

/-- A response determines the chain. -/
theorem exists_serves_iff {blks : List Blk} {c : Cursor} {response : Except Failure (List Bytes)}
    (hpath : vm.Path start blks c) (hresponse : response = .ok (blks.map Blk.bytes)) :
    (∃ blks', response = .ok (blks'.map Blk.bytes) ∧ Serves vm limits start blks') ↔
      Serves vm limits start blks := by
  refine ⟨?_, fun h => ⟨blks, hresponse, h⟩⟩
  rintro ⟨blks', hresponse', h⟩
  rw [hresponse] at hresponse'
  have hlen := congrArg List.length (Except.ok.inj hresponse')
  simp only [List.length_map] at hlen
  obtain ⟨c', hpath', -⟩ := h.path
  rw [← (hpath.unique hpath' hlen).1]
  exact h

/-- `GetAncestors` of a known block serves the longest chain of parents within the limits if and
    only if no chain of post-fork blocks has exactly the maximal size, and the limits that are
    handed over where the fork is hit admit the chains they should. -/
theorem getAncestors_serves (vm : VM) (limits : Limits) (blkID : ID) (hbatched : vm.batched = true)
    (hnum : 1 ≤ limits.maxBlocksNum)
    (hknown : (vm.ancestor (.outer blkID)).isSome = true)
    (htime : ∀ i, vm.clock i < limits.maxBlocksRetrivalTime)
    (hinnerTime : ∀ i, vm.innerClock i < limits.maxBlocksRetrivalTime - vm.handOver) :
    (∃ blks, vm.getAncestors blkID limits = .ok (blks.map Blk.bytes) ∧
      Serves vm limits (.outer blkID) blks) ↔
      vm.NoExactSize limits blkID ∧ vm.HandsOver limits blkID := by
  have hstart : vm.Continues limits blkID [] blkID := ⟨.nil, hnum, .inl (Nat.zero_le 1)⟩
  have hloop : vm.getAncestors blkID limits = vm.postForkLoop (limits.maxBlocksNum.toNat + 1) blkID
      { limits with maxBlocksNum := limits.maxBlocksNum - ([] : List Blk).length }
      (([] : List Blk).map Blk.bytes) (total []) := by
    rw [getAncestors, if_pos hbatched]
    simp [total]
  obtain ⟨blks, id, ⟨hfills, hresponse⟩ | ⟨hcontinues, ⟨e, herror⟩, hresponse⟩⟩ :=
    postForkLoop_spec htime (limits.maxBlocksNum.toNat + 1) hstart (by rw [List.length_nil]; omega)
  · rw [exists_serves_iff hfills.path (hloop.trans hresponse)]
    exact hfills.serves_iff
  rw [hcontinues.conditions_iff herror]
  cases hinner : vm.getInnerBlk id with
  | error e' =>
    -- the next ancestor is not available, and some block was found
    have hnone : vm.ancestor (.outer id) = none := by
      simp [ancestor, herror, hinner, Except.toOption]
    have hne : blks ≠ [] := by
      rintro rfl
      obtain ⟨-, heq⟩ := hstart.path.unique hcontinues.path rfl
      cases heq
      rw [hnone] at hknown
      cases hknown
    rw [exists_serves_iff hcontinues.path
      (hloop.trans (hresponse.trans (preFork_of_error (by simpa using hne) hinner)))]
    exact iff_of_true (hcontinues.serves_of_none hne hnone) fun blk hblk => by cases hblk
  | ok blk =>
    by_cases hone : 1 ≤ (vm.handed limits blks).maxBlocksNum
    · obtain ⟨inner, hinnerBytes, hserves⟩ := getAncestorsLocal_serves (vm.handed limits blks)
        hinnerTime hone hinner (show vm.ancestor (.inner id) = _ by
          simp [ancestor, hinner, Except.toOption])
      obtain ⟨c, hpath, -⟩ := hserves.path
      have hjoined := hcontinues.path.append ((Path.outer_iff herror hserves.nonempty).mpr hpath)
      have hbytes := hloop.trans (hresponse.trans (preFork_of_ok hinnerBytes))
      rw [← List.map_append] at hbytes
      rw [exists_serves_iff hjoined hbytes, serves_append_iff hcontinues herror hserves]
      exact ⟨fun h _ _ => ⟨hone, h⟩, fun h => (h blk rfl).2⟩
    · -- the inner virtual machine makes a slice with a capacity below its length
      refine iff_of_false ?_ fun h => hone (h blk rfl).1
      have hpanic : getAncestorsLocal vm.getInnerBlk vm.innerClock id (vm.handed limits blks) =
          .error .panic := by
        rw [getAncestorsLocal, hinner]
        exact if_pos (not_le.mp hone)
      rintro ⟨blks', hblks', -⟩
      rw [hloop, hresponse, preFork_of_panic hpanic] at hblks'
      cases hblks'

end VM

/-! ## A small chain -/

/-- A post-fork block over two blocks of the inner virtual machine. -/
def forkVM : VM where
  batched := true
  getStatelessBlk id := if id = ⟨2⟩ then .ok { bytes := [7], parent := ⟨1⟩ } else .error .notFound
  getInnerBlk id :=
    if id = ⟨1⟩ then .ok { bytes := [8, 8, 8], parent := ⟨0⟩ }
    else if id = ⟨0⟩ then .ok { bytes := [9], parent := ⟨9⟩ }
    else .error .notFound
  clock _ := 0
  handOver := 0
  innerClock _ := 0

/-- The chains from the post-fork block. -/
theorem path_forkVM {blks : List Blk} {c : Cursor} (h : forkVM.Path (.outer ⟨2⟩) blks c) :
    blks = [] ∧ c = .outer ⟨2⟩ ∨ blks = [⟨[7], ⟨1⟩⟩] ∧ c = .outer ⟨1⟩ ∨
      blks = [⟨[7], ⟨1⟩⟩, ⟨[8, 8, 8], ⟨0⟩⟩] ∧ c = .inner ⟨0⟩ ∨
      blks = [⟨[7], ⟨1⟩⟩, ⟨[8, 8, 8], ⟨0⟩⟩, ⟨[9], ⟨9⟩⟩] ∧ c = .inner ⟨9⟩ := by
  cases h with
  | nil => exact .inl ⟨rfl, rfl⟩
  | cons hblk h =>
    cases hblk
    cases h with
    | nil => exact .inr (.inl ⟨rfl, rfl⟩)
    | cons hblk h =>
      cases hblk
      cases h with
      | nil => exact .inr (.inr (.inl ⟨rfl, rfl⟩))
      | cons hblk h =>
        cases hblk
        cases h with
        | nil => exact .inr (.inr (.inr ⟨rfl, rfl⟩))
        | cons hblk h => cases hblk

/-- The response crosses the fork: with ten blocks to ask for, eight are handed over. -/
theorem VM.getAncestors_serves_forkVM :
    forkVM.getAncestors ⟨2⟩ ⟨10, 100, 1⟩ = .ok [[7], [8, 8, 8], [9]] ∧
    ∃ blks, forkVM.getAncestors ⟨2⟩ ⟨10, 100, 1⟩ = .ok (blks.map Blk.bytes) ∧
      Serves forkVM ⟨10, 100, 1⟩ (.outer ⟨2⟩) blks := by
  refine ⟨by decide +kernel, ?_⟩
  refine (getAncestors_serves forkVM ⟨10, 100, 1⟩ ⟨2⟩ rfl (by decide) (by decide +kernel)
    (fun _ => Int.zero_lt_one) (fun _ => Int.zero_lt_one)).mpr
    ⟨fun blks id hpath htwo _ => ?_, fun done id e blk hdone herror _ => ?_⟩
  · rcases path_forkVM hpath with ⟨rfl, _⟩ | ⟨rfl, _⟩ | ⟨_, h⟩ | ⟨_, h⟩
    · simp at htwo
    · simp at htwo
    · cases h
    · cases h
  rcases path_forkVM hdone.path with ⟨rfl, h⟩ | ⟨rfl, h⟩ | ⟨_, h⟩ | ⟨_, h⟩ <;> cases h
  · cases herror
  refine ⟨by decide, fun blks c hblks hne => ?_⟩
  -- the chains on the other side of the fork
  have hjoined := hdone.path.append ((Path.outer_iff herror hne).mpr hblks)
  rcases path_forkVM hjoined with ⟨h, _⟩ | ⟨h, _⟩ | ⟨h, _⟩ | ⟨h, _⟩ <;> cases h
  · exact absurd rfl hne
  · unfold Limits.Admits
    decide
  · unfold Limits.Admits
    decide

/-- At the hand-over a request for two blocks panics, a request for three stops after two, and
    the size of two blocks is above the limit. -/
theorem exists_bad_handOver : (forkVM.ancestor (.outer ⟨2⟩)).isSome = true ∧
    (∀ i, forkVM.clock i < 1 ∧ forkVM.innerClock i < 1 - forkVM.handOver) ∧
    forkVM.getAncestors ⟨2⟩ ⟨2, 100, 1⟩ = .error .panic ∧
    forkVM.getAncestors ⟨2⟩ ⟨3, 100, 1⟩ = .ok [[7], [8, 8, 8]] ∧
    forkVM.getAncestors ⟨2⟩ ⟨4, 6, 1⟩ = .ok [[7], [8, 8, 8]] ∧
    ¬∃ blks, forkVM.getAncestors ⟨2⟩ ⟨2, 100, 1⟩ = .ok (blks.map Blk.bytes) ∧
      Serves forkVM ⟨2, 100, 1⟩ (.outer ⟨2⟩) blks := by
  have hpanic : forkVM.getAncestors ⟨2⟩ ⟨2, 100, 1⟩ = .error .panic := by decide +kernel
  refine ⟨by decide +kernel, fun i => ⟨Int.zero_lt_one, Int.zero_lt_one⟩, hpanic, by decide +kernel,
    by decide +kernel, ?_⟩
  rintro ⟨blks, hblks, -⟩
  cases hblks

end SavannahNode.BatchedVM
