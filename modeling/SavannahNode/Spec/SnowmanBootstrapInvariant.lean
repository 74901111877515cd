import SavannahNode.Native.SnowmanBootstrap
import SavannahNode.Spec.EngineRequests
import SavannahNode.Spec.MissingJobs

/-!
# What the handlers of a Snowman bootstrapper keep

The queue is a traversal of the parents down to the starting height (`Queue.Traversed`), and what
it misses is requested. The second part does not hold of every run: a handler may leave a missing
block that the virtual machine knows without a request. `Inv` has it as `asked`, only for runs
that are `strict`, and with exemptions while a handler is at work.

## Key results

* `SnowmanBootstrap.Inv` — the invariant.
* `SnowmanBootstrap.checkFinish_ends`, `SnowmanBootstrap.process_ends`,
  `SnowmanBootstrap.forceAccepted_ends` — what the parts of the handlers keep.
-/

namespace SavannahNode.SnowmanBootstrap

open Finset Proc Queue.JobsWithMissing

/-- The blocks a traversal goes to from a block. -/
def Env.parents (env : Env) (id : ID) : Finset ID := {env.parent id}

/-- A traversal ends at the starting height. -/
def Bootstrapper.low (env : Env) (b : Bootstrapper) (id : ID) : Prop := env.height id ≤ b.startingHeight

/-- Nothing is executed while IDs are missing, and an execution that runs to the end has accepted
    what was to be accepted, unless it was held back. -/
def Event.Sane (env : Env) : Event → Prop
  | .started missingIDs => missingIDs = ∅
  | .finished before after startingHeight forced => ∀ id ∈ forced, startingHeight < env.height id →
    (id ∈ after.completed ↔ ¬Queue.HeldBack env.jobs before id)

/-- The invariant, where the blocks in `holes` are about to be visited and the blocks that are
    `exempt` need no request. -/
structure Inv (env : Env) (strict : Prop) (exempt : ID → Prop) (holes : Finset ID)
    (b : Bootstrapper) : Prop where
  traversed : Queue.Traversed env.jobs env.parents (b.low env) b.forced holes b.blocked
  linked : b.outstandingRequests.Linked b.requestID
  asked : strict → b.halter.halted = false → b.forceAcceptedCalled = true →
    ∀ id ∈ b.blocked.queue.missingIDs, exempt id ∨ b.outstandingRequests.contains id = true
  starting : b.startingHeight ≤ b.blocked.completed.sup env.height
  events : ∀ e ∈ b.events, e.Sane env

/-- Nothing is uncommitted but missing IDs. -/
def Bootstrapper.Committed (b : Bootstrapper) : Prop := b.blocked.queue.db = b.blocked.queue.disk

/-- Loops end. -/
def Regular (e : BootErr) : Prop := e ≠ .diverges

variable {env : Env} {strict : Prop} {exempt exempt' : ID → Prop} {holes holes' : Finset ID}
  {b : Bootstrapper} {call : Call} {blkID : ID} {nodeID : NodeID} {requestID : Nat}

variable (hdag : WellFounded fun d id => d ∈ env.jobs.deps id)

/-- The engine asks once whether it is halted. -/
theorem wp_halted_bind {α : Type} {f : Bool → BootM α} {Q : Except BootErr α → Bootstrapper → Prop} :
    (halted >>= f).wp Q b ↔ (f b.halter.halted).wp Q { b with halter := b.halter.skip 1 } := Iff.rfl

/-! ## Single changes of the state -/

namespace Inv

section

variable (h : Inv env strict exempt holes b)

include h

theorem mono (hexempt : ∀ id, exempt id → exempt' id)
    (hholes : holes ⊆ holes') : Inv env strict exempt' holes' b :=
  { h with
    traversed := h.traversed.mono hholes
    asked := fun hs hh hc id hid => (h.asked hs hh hc id hid).imp_left (hexempt id) }

/-- A halted bootstrapper asks for nothing. -/
theorem of_halted (hhalted : b.halter.halted = true) : Inv env strict exempt' holes b := by
  refine { h with asked := fun _ hnot => ?_ }
  rw [hhalted] at hnot
  cases hnot

theorem close
    (hclosed : ∀ id ∈ holes, id ∈ b.blocked.completed ∨ env.height id ≤ b.startingHeight) :
    Inv env strict exempt ∅ b := by
  refine { h with traversed := h.traversed.close fun id hid _ => ?_ }
  exact (hclosed id hid).imp_right .inl

theorem skip (n : Nat) : Inv env strict exempt holes { b with halter := b.halter.skip n } := by
  refine { h with asked := fun hs hh hc => h.asked hs ?_ hc }
  cases hhalted : b.halter.halted with
  | false => rfl
  | true =>
    have := b.halter.halted_skip n hhalted
    rw [this] at hh
    cases hh

theorem addMissingID (blkID : ID) :
    Inv env strict (fun id => id = blkID ∨ exempt id) (holes.erase blkID)
      (b.setQueue (b.blocked.queue.addMissingID blkID)) := by
  refine { h with traversed := h.traversed.addMissingID blkID, asked := fun hs hh hc id hid => ?_ }
  have hid : id ∈ (b.blocked.queue.addMissingID blkID).missingIDs := hid
  rw [missingIDs_addMissingID] at hid
  rcases mem_insert.mp hid with heq | hid
  · exact .inl (.inl heq)
  · exact (h.asked hs hh hc id hid).imp_left .inr

end

theorem removeMissingID (h : Inv env strict (fun id => id = blkID ∨ exempt id) holes b) :
    Inv env strict exempt (insert blkID holes)
      (b.setQueue (b.blocked.queue.removeMissingID blkID)) := by
  refine { h with
    traversed := h.traversed.removeMissingID blkID
    asked := fun hs hh hc id hid => ?_ }
  have hid : id ∈ (b.blocked.queue.removeMissingID blkID).missingIDs := hid
  rw [missingIDs_removeMissingID, mem_erase] at hid
  exact (h.asked hs hh hc id hid.2).imp_left fun hex => hex.resolve_left hid.1

theorem push (h : Inv env strict exempt {blkID} b) (hmissing : blkID ∉ b.blocked.queue.missingIDs)
    (hparents : blkID ∉ b.blocked.queue.db.jobs → env.parents blkID ⊆ holes') :
    Inv env strict exempt holes'
      (b.setQueue (b.blocked.queue.push env.jobs b.blocked.completed blkID).2) := by
  refine { h with
    traversed := h.traversed.push hmissing (fun id hid => .inl (mem_singleton.mp hid)) hparents
    asked := fun hs hh hc id hid => h.asked hs hh hc id ?_ }
  have hid : id ∈ (b.blocked.queue.push env.jobs b.blocked.completed blkID).2.missingIDs := hid
  rw [Queue.Traversed.missingIDs_push env.jobs hmissing] at hid
  exact hid

theorem commit (h : Inv env strict exempt ∅ b) :
    Inv env strict exempt ∅ (b.setQueue (b.blocked.queue.commit env.jobs)) :=
  { h with traversed := h.traversed.commit }

/-- A block is requested. -/
theorem request (h : Inv env strict (fun id => id = blkID ∨ exempt id) holes b)
    (hnew : b.outstandingRequests.contains blkID = false) (validatorID : NodeID) :
    Inv env strict exempt holes
      { b with
        fetchFrom := b.without validatorID
        requestID := b.requestID + 1
        outstandingRequests := b.outstandingRequests.add validatorID (b.requestID + 1) blkID } := by
  refine { h with linked := h.linked.add hnew, asked := fun hs hh hc id hid => ?_ }
  rw [Requests.contains_add]
  rcases h.asked hs hh hc id hid with (heq | hex) | hcontains
  · exact .inr (.inl heq)
  · exact .inl hex
  · exact .inr (.inr hcontains)

/-- The block of a request that was answered has none any more. -/
theorem removeRequest (h : Inv env strict exempt holes b)
    (hremove : (b.outstandingRequests.remove nodeID requestID).1 = some blkID) :
    Inv env strict (fun id => id = blkID ∨ exempt id) holes
      { b with outstandingRequests := (b.outstandingRequests.remove nodeID requestID).2 } := by
  refine { h with linked := h.linked.remove nodeID requestID, asked := fun hs hh hc id hid => ?_ }
  rw [Requests.contains_remove hremove]
  by_cases heq : id = blkID
  · exact .inl (.inl heq)
  · exact (h.asked hs hh hc id hid).imp .inr fun hcontains => ⟨heq, hcontains⟩

end Inv

/-! ## Executions -/

include hdag in
/-- `ExecuteAll` when nothing is missing. -/
theorem executeAll_ends (h : Inv env strict exempt ∅ b) (hcommitted : b.Committed)
    (hmissing : b.blocked.queue.missingIDs = ∅) :
    (executeAll env call).wp (Proc.Ends Regular fun _ b' => Inv env strict exempt ∅ b' ∧ b'.Committed ∧
      (b'.halter.halted = false →
        (Event.finished b.blocked b'.blocked b'.startingHeight b'.forced).Sane env)) b := by
  have hwp := Queue.World.executeAll_wp call.fails b.halter.haltedAt h.traversed.toDurable hcommitted
    h.traversed.loaded
  rw [wp] at hwp
  show Proc.Ends _ _ (executeAll env call b).1 (executeAll env call b).2
  rw [executeAll]
  cases hexec : (Queue.World.executeAll env.jobs call.fails b.halter.haltedAt).exec b.blocked with
  | mk r blocked =>
    rw [hexec] at hwp
    obtain ⟨-, hsince, hok⟩ := hwp
    cases r with
    | error e =>
      intro herr
      cases herr
    | ok n =>
      obtain ⟨hrunning, hempty⟩ := hok n rfl
      have htraversed := h.traversed.executed hcommitted hrunning hsince
      have hstarting : b.startingHeight ≤ blocked.completed.sup env.height :=
        h.starting.trans (sup_mono hsince.completed)
      have hinv : Inv env strict exempt ∅ { b with blocked } := by
        refine ⟨htraversed, h.linked, fun hs hh hc id hid => h.asked hs hh hc id ?_, hstarting,
          h.events⟩
        rw [← hsince.missingIDs]
        exact hid
      refine ⟨hinv.skip (n + 1), hrunning.committed, fun hnot id hid hhigh => ?_⟩
      exact h.traversed.finished hdag hcommitted hmissing hsince hrunning
        (hempty (Halter.haltedAt_of_skip hnot)) id hid (Nat.not_le.mpr hhigh)

/-- What follows an execution changes nothing that matters here. -/
theorem finish_ends (h : Inv env strict exempt ∅ b) (hcommitted : b.Committed) (n : Nat) :
    (finish env call n).wp
      (Proc.Ends Regular fun _ b' => Inv env strict exempt ∅ b' ∧ b'.Committed) b := by
  rw [finish, wp_update]
  dsimp only
  split
  · exact ⟨{ h with }, hcommitted⟩
  split
  · exact ⟨{ h with }, hcommitted⟩
  · exact ⟨{ h with }, hcommitted⟩

theorem Inv.event (h : Inv env strict exempt holes b) {e : Event} (he : e.Sane env) :
    Inv env strict exempt holes { b with events := e :: b.events } :=
  { h with events := List.forall_mem_cons.mpr ⟨he, h.events⟩ }

include hdag in
/-- `checkFinish`. -/
theorem checkFinish_ends (call : Call) (h : Inv env strict exempt ∅ b) (hcommitted : b.Committed) :
    (checkFinish env call).wp
      (Proc.Ends Regular fun _ b' => Inv env strict exempt ∅ b' ∧ b'.Committed) b := by
  rw [checkFinish, wp_read_bind]
  split
  · exact ⟨h, hcommitted⟩
  rename_i hcard
  split
  · exact ⟨h, hcommitted⟩
  have hmissing : b.blocked.queue.missingIDs = ∅ := card_eq_zero.mp (not_not.mp hcard)
  rw [wp_update_bind]
  refine ends_bind (executeAll_ends hdag (h.event (e := .started _) hmissing) hcommitted hmissing) ?_
  rintro n b1 ⟨h1, hcommitted1, hfinished⟩
  rw [wp_halted_bind]
  cases hhalted : b1.halter.halted with
  | true => exact ⟨h1.skip 1, hcommitted1⟩
  | false => exact finish_ends ((h1.skip 1).event (hfinished hhalted)) hcommitted1 n

/-! ## Fetching -/

/-- `fetch`: the block is requested, or the virtual machine has it. -/
theorem fetch_ends {P : Bootstrapper → Prop}
    (h : Inv env strict (fun id => id = blkID ∨ exempt id) holes b)
    (hP : ∀ b', Inv env strict exempt holes b' → b'.blocked = b.blocked → P b')
    (hfound : b.getBlock blkID = true → (checkFinish env call).wp (Proc.Ends Regular fun _ => P) b)
    :
    (fetch env call blkID).wp (Proc.Ends Regular fun _ => P) b := by
  rw [fetch, wp_read_bind]
  split
  · -- it is requested already
    rename_i hcontains
    refine hP b { h with asked := fun hs hh hc id hid => ?_ } rfl
    rcases h.asked hs hh hc id hid with (rfl | hex) | hasked
    · exact .inr hcontains
    · exact .inl hex
    · exact .inr hasked
  rename_i hnot
  split
  · exact hfound ‹_›
  cases (call.peers.list b.fetchFrom).head? with
  | none =>
    intro herr
    cases herr
  | some validatorID =>
    exact hP _ (h.request (Bool.eq_false_iff.mpr hnot) validatorID) rfl

section

variable (call : Call)

include hdag

/-- `fetch` of a block whose request was not answered with it. -/
theorem refetch_ends
    (h : Inv env strict (fun id => id = blkID ∨ exempt id) ∅ b) (hcommitted : b.Committed)
    (hunknown : strict → blkID ∈ b.blocked.queue.missingIDs → b.getBlock blkID = false) :
    (fetch env call blkID).wp
      (Proc.Ends Regular fun _ b' => Inv env strict exempt ∅ b' ∧ b'.Committed) b := by
  refine fetch_ends h (fun b' h' hblocked => ⟨h', ?_⟩) fun hfound =>
    checkFinish_ends hdag call ?_ hcommitted
  · rw [Bootstrapper.Committed, hblocked]
    exact hcommitted
  · refine { h with asked := fun hs hh hc id hid => ?_ }
    rcases h.asked hs hh hc id hid with (rfl | hex) | hasked
    · rw [hunknown hs hid] at hfound
      cases hfound
    · exact .inl hex
    · exact .inr hasked

/-! ## Processing -/

/-- A commit, and a check whether everything is there. -/
theorem commit_checkFinish_ends (h : Inv env strict exempt ∅ b) :
    (do commit env; checkFinish env call : BootM Unit).wp
      (Proc.Ends Regular fun _ b' => Inv env strict exempt ∅ b' ∧ b'.Committed) b := by
  exact checkFinish_ends hdag call h.commit rfl

/-- The loop of `process` visits the block that is about to be visited. -/
theorem processLoop_ends {processingBlocks : List ID} (reachable : Finset ID) (fuel : Nat)
    (h : Inv env strict (fun id => id = blkID ∨ exempt id) {blkID} b) (hblk : blkID ∈ reachable)
    (hreachable : ∀ id, id ∈ processingBlocks ∨ b.getBlock id = true → id ∈ reachable)
    (hfuel : (reachable \ b.blocked.queue.db.jobs).card < fuel) :
    (processLoop env call processingBlocks fuel blkID).wp
      (Proc.Ends Regular fun _ b' => Inv env strict exempt ∅ b' ∧ b'.Committed) b := by
  -- on the fuel: what can be reached and is not queued gets less with every block
  induction fuel generalizing b blkID with
  | zero => omega
  | succ fuel ih =>
    rw [processLoop, wp_halted_bind]
    cases hhalted : b.halter.halted with
    | true =>
      -- the block is left as a missing one
      have hclosed : Inv env strict (fun id => id = blkID ∨ id = blkID ∨ exempt id) ∅ _ :=
        ((h.skip 1).addMissingID blkID).mono (fun _ hex => hex) (by simp)
      exact ⟨hclosed.commit.of_halted (Halter.halted_skip 1 hhalted), rfl⟩
    | false =>
      rw [if_neg Bool.false_ne_true, removeMissingID, wp_update_bind, wp_read_bind]
      have h1 : Inv env strict exempt {blkID} _ :=
        ((h.skip 1).removeMissingID).mono (fun _ hex => hex) (by simp)
      split
      · intro herr
        cases herr
      split
      · -- the accepted frontier is reached
        rename_i haccepted
        refine commit_checkFinish_ends hdag call (h1.close fun id hid => ?_)
        obtain rfl := mem_singleton.mp hid
        exact haccepted
      have hmissing : blkID ∉ (b.blocked.queue.removeMissingID blkID).missingIDs := by
        rw [missingIDs_removeMissingID]
        exact notMem_erase blkID _
      have hfst := h1.traversed.push_fst hmissing
      have hjobs := h1.traversed.jobs_push hmissing
      rw [wp_bind, push, wp_read_bind, wp_update_bind, wp_pure, between_ok]
      split
      · -- it is queued already
        rename_i hpushed
        refine commit_checkFinish_ends hdag call (h1.push hmissing fun hnew => ?_)
        rw [hfst.trans (decide_eq_true hnew)] at hpushed
        cases hpushed
      rename_i hpushed
      have hnew : blkID ∉ b.blocked.queue.db.jobs := by
        intro hold
        refine hpushed ?_
        rw [hfst.trans (decide_eq_false ?_)]
        · rfl
        · rw [not_not]
          exact (b.blocked.queue.toJobs_removeMissingID blkID).symm ▸ hold
      have h2 : Inv env strict exempt {env.parent blkID} _ := h1.push hmissing fun _ => subset_rfl
      have hless : (reachable \ insert blkID b.blocked.queue.db.jobs).card < fuel := by
        rw [sdiff_insert]
        have := card_erase_lt_of_mem (mem_sdiff.mpr ⟨hblk, hnew⟩)
        omega
      have hgo : env.parent blkID ∈ reachable → (processLoop env call processingBlocks fuel
          (env.parent blkID)).wp (Proc.Ends Regular fun _ b' =>
            Inv env strict exempt ∅ b' ∧ b'.Committed) _ := fun hmem =>
        ih (h2.mono (fun _ => .inr) subset_rfl) hmem hreachable (by
          rw [← b.blocked.queue.toJobs_removeMissingID blkID] at hless
          exact hjobs.symm ▸ hless)
      split
      · exact hgo (hreachable _ (.inl ‹_›))
      split
      · exact hgo (hreachable _ (.inr ‹_›))
      -- the parent is not known: it is missing, and asked for
      rename_i hunknown
      rw [addMissingID, wp_update_bind]
      have h3 : Inv env strict (fun id => id = env.parent blkID ∨ exempt id) ∅ _ :=
        (h2.addMissingID (env.parent blkID)).mono (fun _ hex => hex) (by simp)
      refine ends_bind (P := fun _ b' => Inv env strict exempt ∅ b')
        (fetch_ends h3 (fun _ h _ => h) fun hfound => absurd hfound hunknown) fun _ _ h =>
          commit_checkFinish_ends hdag call h

/-- `process` visits a block. -/
theorem process_ends
    (processingBlocks : List ID) (h : Inv env strict (fun id => id = blkID ∨ exempt id) ∅ b) :
    (process env call processingBlocks blkID).wp
      (Proc.Ends Regular fun _ b' => Inv env strict exempt ∅ b' ∧ b'.Committed) b := by
  refine processLoop_ends hdag call (b.reachable processingBlocks blkID) _
    (h.mono (fun _ hex => hex) (empty_subset _)) (mem_insert_self _ _)
    (fun id hid => mem_insert_of_mem ?_)
    (Nat.lt_succ_of_le (card_le_card sdiff_subset))
  rw [mem_union, List.mem_toFinset, mem_union]
  exact hid.imp_right of_decide_eq_true

end

/-- The first loop of `ForceAccepted`: a block that is not found is requested. -/
theorem seek_ends (call : Call) (exempt : ID → Prop) (blkIDs : List ID)
    (h : Inv env strict (fun id => id ∈ blkIDs ∨ exempt id) blkIDs.toFinset b)
    (hcommitted : b.Committed) :
    (seek env call blkIDs).wp (Proc.Ends Regular fun toProcess b' =>
      Inv env strict (fun id => id ∈ toProcess ∨ exempt id) ∅ b' ∧ b'.Committed) b := by
  induction blkIDs generalizing b exempt with
  | nil => exact ⟨h, hcommitted⟩
  | cons blkID blkIDs ih =>
    rw [seek, addMissingID, wp_update_bind, wp_read_bind]
    have hholes : ((blkID :: blkIDs).toFinset).erase blkID ⊆ blkIDs.toFinset := by
      intro id hid
      rw [mem_erase, List.mem_toFinset, List.mem_cons] at hid
      exact List.mem_toFinset.mpr (hid.2.resolve_left hid.1)
    have hcommitted1 : (b.setQueue (b.blocked.queue.addMissingID blkID)).Committed := by
      show (b.blocked.queue.addMissingID blkID).db = (b.blocked.queue.addMissingID blkID).disk
      rw [toJobs_addMissingID]
      exact hcommitted
    have h1 : Inv env strict (fun id => id = blkID ∨ id ∈ blkIDs ∨ exempt id) blkIDs.toFinset _ :=
      (h.addMissingID blkID).mono (fun id hex => by
        rw [List.mem_cons] at hex
        tauto) hholes
    split
    · refine ends_bind (ih (fun id => id = blkID ∨ exempt id)
        (h1.mono (fun id hex => by tauto) subset_rfl) hcommitted1) ?_
      rintro toProcess b' ⟨h', hcommitted'⟩
      refine ⟨h'.mono (fun id hex => ?_) subset_rfl, hcommitted'⟩
      rw [List.mem_cons]
      tauto
    rename_i hunknown
    refine ends_bind (P := fun _ b' => Inv env strict (fun id => id ∈ blkIDs ∨ exempt id)
      blkIDs.toFinset b' ∧ b'.Committed) (fetch_ends h1 (fun b' h' hblocked => ⟨h', ?_⟩)
        fun hfound => absurd hfound hunknown) fun _ _ h => ih exempt h.1 h.2
    rw [Bootstrapper.Committed, hblocked]
    exact hcommitted1

include hdag in
/-- The second loop of `ForceAccepted`. -/
theorem processAll_ends (call : Call) (blkIDs : List ID)
    (h : Inv env strict (fun id => id ∈ blkIDs ∨ exempt id) ∅ b) (hcommitted : b.Committed) :
    (processAll env call blkIDs).wp
      (Proc.Ends Regular fun _ b' => Inv env strict exempt ∅ b' ∧ b'.Committed) b := by
  induction blkIDs generalizing b with
  | nil =>
    refine ⟨h.mono (fun id hex => ?_) subset_rfl, hcommitted⟩
    exact hex.resolve_left List.not_mem_nil
  | cons blkID blkIDs ih =>
    refine ends_bind (process_ends hdag call [] (h.mono (fun id hex => ?_) subset_rfl))
      fun _ b' h' => ih h'.1 h'.2
    rw [List.mem_cons, or_assoc] at hex
    exact hex

include hdag in
/-- `ForceAccepted` asks for everything that is missing. -/
theorem forceAccepted_ends (call : Call)
    (acceptedContainerIDs : List ID) (h : Inv env strict exempt ∅ b) (hcommitted : b.Committed) :
    (forceAccepted env call acceptedContainerIDs).wp
      (Proc.Ends Regular fun _ b' => Inv env strict (fun _ => False) ∅ b' ∧ b'.Committed) b := by
  rw [forceAccepted, wp_read_bind, wp_update_bind]
  refine ends_bind (seek_ends call (fun _ => False) _ ?_ hcommitted) fun toProcess b1 h1 =>
    ends_bind (processAll_ends hdag call toProcess h1.1 h1.2) fun _ b2 h2 =>
      checkFinish_ends hdag call h2.1 h2.2
  have htraversed := h.traversed
  refine ⟨⟨htraversed.toDurable, htraversed.view, htraversed.loaded, htraversed.synced,
    fun id hid p hp _ => htraversed.covers id hid p hp (notMem_empty p), fun id hid hnot => ?_,
    htraversed.stored⟩, h.linked, fun _ _ _ id hid => .inl (.inl ?_), h.starting, h.events⟩
  · rcases mem_union.mp hid with hid | hid
    · exact htraversed.reached id hid (notMem_empty id)
    rw [List.mem_toFinset, List.mem_append] at hnot
    exact absurd (.inr (List.mem_toFinset.mp hid)) hnot
  · exact List.mem_append.mpr (.inl ((env.order.mem_list _ _).mpr hid))

end SavannahNode.SnowmanBootstrap
