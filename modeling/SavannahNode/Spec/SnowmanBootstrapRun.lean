import SavannahNode.Spec.JobQueueRun
import SavannahNode.Spec.SnowmanBootstrapInvariant

/-!
# Runs of a Snowman bootstrapper

Handlers are called in any order and with any messages, the virtual machine learns and forgets
blocks, and the node is halted and restarted. The parent of a queued block is never forgotten, and
blocks are executed only when nothing is missing. But a missing block may be left without a
request: if it becomes known to the virtual machine before its own request is answered, and then
the answer is of no use, it is neither requested again nor processed.

## Key results

* `SnowmanBootstrap.run_tracked` — what holds after every run, and that missing blocks are
  requested as long as the virtual machine does not know a block that is fetched again, and no
  longer.
* `SnowmanBootstrap.exists_unasked` — a missing block that is not requested.
-/

namespace SavannahNode.SnowmanBootstrap

open Finset Proc

/-- What can happen to a bootstrapper. -/
inductive Op where
  | forceAccepted (acceptedContainerIDs : List ID)
  /-- The virtual machine learns some blocks when it parses. -/
  | ancestors (nodeID : NodeID) (requestID : Nat) (blks : List Bytes) (learned : Finset ID)
  | getAncestorsFailed (nodeID : NodeID) (requestID : Nat)
  | timeout
  | connected (nodeID : NodeID) (beacon : Bool)
  | disconnected (nodeID : NodeID)
  | setPreferredPeers (preferredPeers : Finset NodeID)
  /-- The virtual machine learns and forgets blocks. -/
  | setKnown (known : Finset ID)
  /-- `Halt`, before the `n`-th of the next calls of `Halted`. -/
  | halt (n : Nat)
  /-- The node is restarted. -/
  | restart (known : Finset ID)

/-- Handle everything but a restart. -/
def handle (env : Env) (call : Call) : Op → BootM Unit
  | .forceAccepted acceptedContainerIDs => forceAccepted env call acceptedContainerIDs
  | .ancestors nodeID requestID blks learned => ancestors env call nodeID requestID blks learned
  | .getAncestorsFailed nodeID requestID => getAncestorsFailed env call nodeID requestID
  | .timeout => timeout
  | .connected nodeID beacon => if beacon then fetchFromAdd nodeID else pure ()
  | .disconnected nodeID => markUnavailable nodeID
  | .setPreferredPeers preferredPeers => Proc.update fun b => { b with preferredPeers }
  | .setKnown known => Proc.update fun b => { b with known }
  | .halt n => Proc.update fun b => { b with halter := b.halter.halt n }
  | .restart _ => pure ()

/-- One step of a run; `none` if a handler returns an error. -/
def step (env : Env) (b : Bootstrapper) (op : Op × Call) : Option Bootstrapper :=
  match op.1 with
  | .restart known =>
    (b.blocked.reopen env.jobs true).map fun blocked =>
      .new env blocked known b.preferredPeers b.events
  | o =>
    match (handle env op.2 o).exec b with
    | (.ok _, b) => some b
    | (.error _, _) => none

/-- A node that starts with an empty queue. -/
def start (env : Env) (accepted known : Finset ID) (preferredPeers : Finset NodeID) : Bootstrapper :=
  .new env (Queue.start accepted) known preferredPeers []

/-- A run, as long as handlers return no error. -/
def run (env : Env) (accepted known : Finset ID) (preferredPeers : Finset NodeID)
    (ops : List (Op × Call)) : Option Bootstrapper :=
  ops.foldlM (step env) (start env accepted known preferredPeers)

/-- The answer starts with the block that was requested. -/
def Env.Delivers (env : Env) (blks : List Bytes) (blkID : ID) : Prop :=
  ∃ blockSet, env.parseAll (blks.take env.ancestorsMaxContainersReceived) = some (blkID :: blockSet)

/-- If a request is not answered with the block, the virtual machine does not have it. -/
def Op.Unknown (env : Env) (b : Bootstrapper) : Op → Prop
  | .ancestors nodeID requestID blks learned => ∀ blkID ∈ b.blocked.queue.missingIDs,
    (b.outstandingRequests.remove nodeID requestID).1 = some blkID → ¬env.Delivers blks blkID →
    blkID ∉ b.blocked.completed ∧ blkID ∉ b.known ∧ (blks ≠ [] → blkID ∉ learned)
  | .getAncestorsFailed nodeID requestID => ∀ blkID ∈ b.blocked.queue.missingIDs,
    (b.outstandingRequests.remove nodeID requestID).1 = some blkID →
    blkID ∉ b.blocked.completed ∧ blkID ∉ b.known
  | _ => True

variable {env : Env} {strict : Prop} {exempt : ID → Prop} {holes : Finset ID} {b b' : Bootstrapper}
  {call : Call}

/-! ## The handlers -/

theorem Inv.setKnown (h : Inv env strict exempt holes b) (known : Finset ID) :
    Inv env strict exempt holes { b with known } :=
  { h with }

theorem Inv.setFetchFrom (h : Inv env strict exempt holes b) (fetchFrom : Finset NodeID) :
    Inv env strict exempt holes { b with fetchFrom } :=
  { h with }

theorem getBlock_eq_false {blkID : ID} (haccepted : blkID ∉ b.blocked.completed)
    (hknown : blkID ∉ b.known) : b.getBlock blkID = false := by
  simp [Bootstrapper.getBlock, haccepted, hknown]

section

variable (hdag : WellFounded fun d id => d ∈ env.jobs.deps id) (call : Call)

include hdag

/-- `Ancestors`. -/
theorem ancestors_ends (nodeID : NodeID) (requestID : Nat) (blks : List Bytes) (learned : Finset ID)
    (h : Inv env strict exempt ∅ b) (hcommitted : b.Committed)
    (hunknown : strict → (Op.ancestors nodeID requestID blks learned).Unknown env b) :
    (ancestors env call nodeID requestID blks learned).wp
      (Proc.Ends Regular fun _ b' => Inv env strict exempt ∅ b' ∧ b'.Committed) b := by
  rw [ancestors, wp_bind, removeRequest, wp_read_bind, wp_update_bind, wp_pure, between_ok]
  cases hremove : (b.outstandingRequests.remove nodeID requestID).1 with
  | none =>
    rw [Requests.remove_of_none hremove]
    exact ⟨h, hcommitted⟩
  | some wantedBlkID =>
    have h1 := h.removeRequest hremove
    dsimp only
    split
    · rename_i hlength
      refine refetch_ends hdag call (h1.setFetchFrom _) hcommitted fun hs hmissing => ?_
      have hnone : ¬env.Delivers blks wantedBlkID := by
        rintro ⟨blockSet, hparse⟩
        rw [List.length_eq_zero_iff.mp hlength, List.take_nil] at hparse
        cases hparse
      obtain ⟨haccepted, hknown, -⟩ := hunknown hs wantedBlkID hmissing hremove hnone
      exact getBlock_eq_false haccepted hknown
    rename_i hlength
    rw [fetchFromAdd, wp_update_bind, wp_update_bind]
    have h2 := (h1.setFetchFrom (insert nodeID b.fetchFrom)).setKnown (b.known ∪ learned)
    -- every useless answer leads to a new request
    have hagain : ¬env.Delivers blks wantedBlkID → (fetch env call wantedBlkID).wp
        (Proc.Ends Regular fun _ b' => Inv env strict exempt ∅ b' ∧ b'.Committed) _ := fun hnot =>
      refetch_ends hdag call h2 hcommitted fun hs hmissing => by
        obtain ⟨haccepted, hknown, hlearned⟩ := hunknown hs wantedBlkID hmissing hremove hnot
        exact getBlock_eq_false haccepted (notMem_union.mpr
          ⟨hknown, hlearned fun hnil => hlength (List.length_eq_zero_iff.mpr hnil)⟩)
    cases hparse : env.parseAll (blks.take env.ancestorsMaxContainersReceived) with
    | none =>
      refine hagain ?_
      rintro ⟨blockSet, heq⟩
      rw [hparse] at heq
      cases heq
    | some blocks =>
      cases blocks with
      | nil =>
        refine hagain ?_
        rintro ⟨blockSet, heq⟩
        rw [hparse] at heq
        cases heq
      | cons requestedBlock blockSet =>
        dsimp only
        split
        · rename_i hne
          refine hagain ?_
          rintro ⟨blockSet', heq⟩
          rw [hparse] at heq
          cases heq
          exact hne rfl
        rename_i heq
        rw [not_not] at heq
        subst heq
        exact process_ends hdag call blockSet h2

/-- `GetAncestorsFailed`. -/
theorem getAncestorsFailed_ends
    (nodeID : NodeID) (requestID : Nat) (h : Inv env strict exempt ∅ b) (hcommitted : b.Committed)
    (hunknown : strict → (Op.getAncestorsFailed nodeID requestID).Unknown env b) :
    (getAncestorsFailed env call nodeID requestID).wp
      (Proc.Ends Regular fun _ b' => Inv env strict exempt ∅ b' ∧ b'.Committed) b := by
  rw [getAncestorsFailed, wp_bind, removeRequest, wp_read_bind, wp_update_bind, wp_pure, between_ok]
  cases hremove : (b.outstandingRequests.remove nodeID requestID).1 with
  | none =>
    rw [Requests.remove_of_none hremove]
    exact ⟨h, hcommitted⟩
  | some blkID =>
    refine refetch_ends hdag call ((h.removeRequest hremove).setFetchFrom _) hcommitted
      fun hs hmissing => ?_
    obtain ⟨haccepted, hknown⟩ := hunknown hs blkID hmissing hremove
    exact getBlock_eq_false haccepted hknown

/-- Every handler keeps the invariant. -/
theorem handle_ends (op : Op) (h : Inv env strict (fun _ => False) ∅ b) (hcommitted : b.Committed)
    (hunknown : strict → op.Unknown env b) :
    (handle env call op).wp
      (Proc.Ends Regular fun _ b' => Inv env strict (fun _ => False) ∅ b' ∧ b'.Committed) b := by
  cases op with
  | forceAccepted acceptedContainerIDs =>
    exact forceAccepted_ends hdag call acceptedContainerIDs h hcommitted
  | ancestors nodeID requestID blks learned =>
    exact ancestors_ends hdag call nodeID requestID blks learned h hcommitted hunknown
  | getAncestorsFailed nodeID requestID =>
    exact getAncestorsFailed_ends hdag call nodeID requestID h hcommitted hunknown
  | timeout =>
    rw [handle, timeout, wp_read_bind]
    split
    · exact ⟨{ h with }, hcommitted⟩
    intro herr
    cases herr
  | connected nodeID beacon =>
    rw [handle]
    split
    · exact ⟨h.setFetchFrom _, hcommitted⟩
    · exact ⟨h, hcommitted⟩
  | disconnected nodeID => exact ⟨h.setFetchFrom _, hcommitted⟩
  | setPreferredPeers preferredPeers =>
    exact ⟨{ h with }, hcommitted⟩
  | setKnown known => exact ⟨h.setKnown known, hcommitted⟩
  | halt n =>
    refine ⟨{ h with asked := fun hs hh => h.asked hs ?_ }, hcommitted⟩
    cases hhalted : b.halter.halted with
    | false => rfl
    | true =>
      have hh : (b.halter.halt n).halted = false := hh
      rw [Halter.halted_halt n hhalted] at hh
      cases hh
  | restart known => exact ⟨h, hcommitted⟩

end

/-! ## Blocks that are left -/

/-- Nothing is asked for, and a missing block has no request. -/
def Unasked (b b' : Bootstrapper) : Prop :=
  b'.halter = b.halter ∧ b'.forceAcceptedCalled = b.forceAcceptedCalled ∧
    ∃ id ∈ b'.blocked.queue.missingIDs, b'.outstandingRequests.contains id = false

/-- `fetch` of a missing block that the virtual machine has does nothing. -/
theorem fetch_unasked (b' : Bootstrapper) {blkID : ID}
    (hmissing : blkID ∈ b'.blocked.queue.missingIDs)
    (hnot : b'.outstandingRequests.contains blkID = false) (hfound : b'.getBlock blkID = true)
    (hhalter : b'.halter = b.halter) (hcalled : b'.forceAcceptedCalled = b.forceAcceptedCalled) :
    (fetch env call blkID).wp (fun r b' => r = .ok () ∧ Unasked b b') b' := by
  rw [fetch, wp_read_bind, hnot, if_neg Bool.false_ne_true, hfound, if_pos rfl, checkFinish,
    wp_read_bind, if_pos (card_ne_zero_of_mem hmissing)]
  exact ⟨rfl, hhalter, hcalled, blkID, hmissing, hnot⟩

/-- A useless answer for a missing block that the virtual machine has. -/
theorem handle_unasked (call : Call) (op : Op) (hop : ¬op.Unknown env b) :
    (handle env call op).wp (fun r b' => r = .ok () ∧ Unasked b b') b := by
  have hremoved : ∀ {nodeID requestID blkID},
      (b.outstandingRequests.remove nodeID requestID).1 = some blkID →
      (b.outstandingRequests.remove nodeID requestID).2.contains blkID = false := by
    intro nodeID requestID blkID hremove
    exact Bool.eq_false_iff.mpr fun h => ((Requests.contains_remove hremove).mp h).1 rfl
  cases op with
  | ancestors nodeID requestID blks learned =>
    simp only [Op.Unknown, not_forall, not_and_or, not_not] at hop
    obtain ⟨blkID, hmissing, hremove, hnone, hfound⟩ := hop
    rw [handle, ancestors, wp_bind, removeRequest, wp_read_bind, wp_update_bind, wp_pure, between_ok,
      hremove]
    dsimp only
    split
    · rename_i hlength
      refine fetch_unasked _ hmissing (hremoved hremove) ?_ rfl rfl
      simpa [Bootstrapper.getBlock, List.length_eq_zero_iff.mp hlength] using hfound
    rw [fetchFromAdd, wp_update_bind, wp_update_bind]
    -- whatever is wrong with the answer, the block is fetched
    have hfetch : (fetch env call blkID).wp (fun r b' => r = .ok () ∧ Unasked b b') _ :=
      fetch_unasked { b with
        outstandingRequests := (b.outstandingRequests.remove nodeID requestID).2
        fetchFrom := insert nodeID b.fetchFrom
        known := b.known ∪ learned } hmissing (hremoved hremove) (by
          simp only [Bootstrapper.getBlock, mem_union, decide_eq_true_eq]
          tauto) rfl rfl
    cases hparse : env.parseAll (blks.take env.ancestorsMaxContainersReceived) with
    | none => exact hfetch
    | some blocks =>
      cases blocks with
      | nil => exact hfetch
      | cons requestedBlock blockSet =>
        dsimp only
        split
        · exact hfetch
        · rename_i heq
          rw [not_not] at heq
          exact absurd ⟨blockSet, heq ▸ hparse⟩ hnone
  | getAncestorsFailed nodeID requestID =>
    simp only [Op.Unknown, not_forall, not_and_or, not_not] at hop
    obtain ⟨blkID, hmissing, hremove, hfound⟩ := hop
    rw [handle, getAncestorsFailed, wp_bind, removeRequest, wp_read_bind, wp_update_bind, wp_pure,
      between_ok, hremove]
    refine fetch_unasked _ hmissing (hremoved hremove) ?_ rfl rfl
    simpa [Bootstrapper.getBlock] using hfound
  | _ => exact absurd trivial hop

/-! ## Steps -/

/-- A bootstrapper that starts has asked for nothing. -/
theorem new_inv {blocked : Queue.World} (known : Finset ID) (preferredPeers : Finset NodeID)
    {events : List Event} (hevents : ∀ e ∈ events, e.Sane env)
    (htraversed : Queue.Traversed env.jobs env.parents
      (fun id => env.height id ≤ blocked.completed.sup env.height) ∅ ∅ blocked) :
    Inv env strict exempt ∅ (.new env blocked known preferredPeers events) := by
  refine ⟨htraversed, Requests.linked_empty 0, fun _ _ hcalled => ?_, le_rfl, hevents⟩
  cases hcalled

theorem start_inv (env : Env) (accepted known : Finset ID) (preferredPeers : Finset NodeID) :
    Inv env strict exempt ∅ (start env accepted known preferredPeers) :=
  new_inv known preferredPeers (fun _ he => absurd he List.not_mem_nil)
    (Queue.Traversed.start env.jobs env.parents _ accepted)

theorem step_of_exec {op : Op} (hrestart : ∀ known, op ≠ .restart known)
    (hexec : (handle env call op).exec b = (.ok (), b')) : step env b (op, call) = some b' := by
  cases op with
  | restart known => exact absurd rfl (hrestart known)
  | _ => simp only [step, hexec]

/-- Every step of a run keeps the invariant. -/
theorem step_inv (hdag : WellFounded fun d id => d ∈ env.jobs.deps id) {op : Op × Call}
    (h : Inv env strict (fun _ => False) ∅ b) (hcommitted : b.Committed)
    (hunknown : strict → op.1.Unknown env b) (hstep : step env b op = some b') :
    Inv env strict (fun _ => False) ∅ b' ∧ b'.Committed := by
  obtain ⟨op, call⟩ := op
  by_cases hrestart : ∃ known, op = .restart known
  · obtain ⟨known, rfl⟩ := hrestart
    -- what was stored is complete down to the old starting height, which is no higher
    obtain ⟨blocked, hreopen, hcompleted, hdb, htraversed⟩ := h.traversed.reopen
      (fun id => env.height id ≤ b.blocked.completed.sup env.height)
      fun id hlow => le_trans hlow h.starting
    rw [step, hreopen] at hstep
    cases hstep
    rw [← hcompleted] at htraversed
    exact ⟨new_inv known _ h.events htraversed, hdb⟩
  have hwp := handle_ends hdag call op h hcommitted hunknown
  have hstep' : step env b (op, call) = match (handle env call op).exec b with
      | (.ok _, b) => some b
      | (.error _, _) => none := by
    cases op with
    | restart known => exact absurd ⟨known, rfl⟩ hrestart
    | _ => rfl
  rw [hstep'] at hstep
  rw [wp] at hwp
  cases hexec : (handle env call op).exec b with
  | mk r b1 =>
    rw [hexec] at hstep hwp
    cases r with
    | error e => cases hstep
    | ok u =>
      cases hstep
      exact hwp

/-! ## Runs -/

/-- What holds of a bootstrapper after every handler. -/
structure Kept (env : Env) (b : Bootstrapper) : Prop where
  /-- The parent of a queued block is accepted, low, queued or missing. -/
  parents : ∀ id ∈ b.blocked.queue.db.jobs, env.parent id ∈ b.blocked.completed ∨
    env.height (env.parent id) ≤ b.startingHeight ∨ env.parent id ∈ b.blocked.queue.db.jobs ∨
    env.parent id ∈ b.blocked.queue.missingIDs
  /-- The same of what is stored. -/
  stored : ∀ id ∈ b.blocked.queue.disk.jobs, env.parent id ∈ b.blocked.completed ∨
    env.height (env.parent id) ≤ b.startingHeight ∨ env.parent id ∈ b.blocked.queue.disk.jobs ∨
    env.parent id ∈ b.blocked.queue.disk.missingJobIDs
  /-- Nothing was executed while IDs were missing. -/
  started : ∀ missingIDs, Event.started missingIDs ∈ b.events → missingIDs = ∅
  /-- Every execution that ran to the end has accepted what was passed to `ForceAccepted`, but for
      the blocks that were held back when it started. -/
  finished : ∀ before after startingHeight forced,
    Event.finished before after startingHeight forced ∈ b.events →
    ∀ id ∈ forced, startingHeight < env.height id →
      (id ∈ after.completed ↔ ¬Queue.HeldBack env.jobs before id)
  /-- No handler loops. -/
  ends : ∀ call op, ((handle env call op).exec b).1 ≠ .error .diverges

theorem Inv.kept (hdag : WellFounded fun d id => d ∈ env.jobs.deps id)
    (h : Inv env False (fun _ => False) ∅ b) (hcommitted : b.Committed) : Kept env b := by
  refine ⟨fun id hid => ?_, fun id hid => ?_, fun m he => h.events _ he,
    fun w w' s f he => h.events _ he, fun call op herr => ?_⟩
  · exact h.traversed.covers id hid _ (mem_singleton_self _) (notMem_empty _)
  · have := h.traversed.stored id hid _ (mem_singleton_self _)
    rw [Queue.Covered, List.mem_toFinset] at this
    exact this
  · have hwp := handle_ends hdag call op h hcommitted False.elim
    rw [wp, herr] at hwp
    exact hwp rfl

/-- After every run no block is forgotten. If the virtual machine never has a missing block whose
    request fails, every missing block is requested; and the first time it has, one is not. -/
theorem run_tracked (env : Env) (hdag : WellFounded fun d id => d ∈ env.jobs.deps id)
    (accepted known : Finset ID) (preferredPeers : Finset NodeID) (ops : List (Op × Call))
    (b : Bootstrapper) (hrun : run env accepted known preferredPeers ops = some b) :
    Kept env b ∧
    (List.Throughout (fun b op => op.1.Unknown env b) (step env)
        (start env accepted known preferredPeers) ops →
      b.halter.halted = false → b.forceAcceptedCalled = true →
      ∀ id ∈ b.blocked.queue.missingIDs, ∃ nodeID requestID,
        b.outstandingRequests.reqsToID.lookup (nodeID, requestID) = some id) ∧
    ∀ op call, ¬op.Unknown env b → ∃ b', step env b (op, call) = some b' ∧ b'.halter = b.halter ∧
      b'.forceAcceptedCalled = b.forceAcceptedCalled ∧ ∃ id ∈ b'.blocked.queue.missingIDs,
        ∀ nodeID requestID, b'.outstandingRequests.reqsToID.lookup (nodeID, requestID) ≠ some id := by
  obtain ⟨hinv, hcommitted⟩ := List.foldlM_keeps
    (I := fun b => Inv env False (fun _ => False) ∅ b ∧ b.Committed)
    (fun b op b' h hstep => step_inv hdag h.1 h.2 False.elim hstep)
    ⟨start_inv env accepted known preferredPeers, rfl⟩ hrun
  refine ⟨hinv.kept hdag hcommitted, ?_, fun op call hop => ?_⟩
  swap
  · obtain ⟨hok, hhalter, hcalled, id, hmissing, hnot⟩ := handle_unasked call op hop
    have hrestart : ∀ known, op ≠ .restart known := by
      rintro known rfl
      exact hop trivial
    have hstep := step_of_exec hrestart (Prod.ext hok rfl)
    have hinv' := (step_inv hdag hinv hcommitted False.elim hstep).1
    refine ⟨_, hstep, hhalter, hcalled, id, hmissing, fun nodeID requestID hlookup => ?_⟩
    rw [hinv'.linked.contains_iff.mpr ⟨_, hlookup⟩] at hnot
    cases hnot
  intro hunknown hhalted hcalled id hid
  obtain ⟨hinv, -⟩ := List.Throughout.of_foldlM
    (I := fun b => Inv env True (fun _ => False) ∅ b ∧ b.Committed)
    (fun b op b' h hop hstep => step_inv hdag h.1 h.2 (fun _ => hop) hstep)
    ⟨start_inv env accepted known preferredPeers, rfl⟩ hunknown hrun
  have hcontains := (hinv.asked trivial hhalted hcalled id hid).resolve_left not_false
  obtain ⟨⟨nodeID, requestID⟩, hlookup⟩ := hinv.linked.contains_iff.mp hcontains
  exact ⟨nodeID, requestID, hlookup⟩

/-! ## Two blocks on an accepted one -/

/-- Block 1 is accepted, and blocks 2 and 3 are its children. -/
def twoChildren : Env where
  parent id := if id = ⟨2⟩ ∨ id = ⟨3⟩ then ⟨1⟩ else ID.empty
  height id := if id = ⟨2⟩ ∨ id = ⟨3⟩ then 1 else 0
  rejected _ := false
  parse bytes := bytes.head?.map fun n => ⟨BitVec.ofNat 256 n.toNat⟩
  ancestorsMaxContainersReceived := 2000
  retryBootstrap := true
  order := .ids

/-- Executions succeed. -/
def succeeds : Call where
  peers := .nodeIDs
  fails _ := false
  subnetBootstrapped := true

theorem twoChildren_wf : WellFounded fun d id => d ∈ twoChildren.jobs.deps id := by
  refine Subrelation.wf (r := InvImage (· < ·) fun id : ID =>
    if id = ID.empty then 0 else twoChildren.height id + 1) (fun {d id} hd => ?_) (InvImage.wf _ wellFounded_lt)
  have hd : d ∈ if id = ID.empty then ∅ else ({twoChildren.parent id} : Finset ID) := hd
  split at hd
  · exact absurd hd (notMem_empty d)
  rename_i hid
  obtain rfl := mem_singleton.mp hd
  by_cases hchild : id = ⟨2⟩ ∨ id = ⟨3⟩
  · have hparent : twoChildren.parent id = ⟨1⟩ := if_pos hchild
    have hheight : twoChildren.height id = 1 := if_pos hchild
    rw [InvImage, hparent, hheight, if_neg hid]
    decide
  have hparent : twoChildren.parent id = ID.empty := if_neg hchild
  have hheight : twoChildren.height id = 0 := if_neg hchild
  rw [InvImage, hparent, hheight, if_neg hid]
  decide

/-- Blocks 2 and 3 are requested. The first request is answered, and the second fails. -/
def askedOps : List (Op × Call) :=
  [(.forceAccepted [⟨2⟩, ⟨3⟩], succeeds), (.ancestors ⟨0⟩ 1 [[2]] {⟨2⟩}, succeeds),
    (.getAncestorsFailed ⟨0⟩ 2, succeeds)]

/-- Block 3 is requested again. -/
theorem run_tracked_askedOps : ∃ b, run twoChildren {⟨1⟩} ∅ {⟨0⟩} askedOps = some b ∧
    Kept twoChildren b ∧ b.blocked.queue.db.jobs = {⟨2⟩} ∧ b.blocked.queue.missingIDs = {⟨3⟩} ∧
    ∃ nodeID requestID, b.outstandingRequests.reqsToID.lookup (nodeID, requestID) = some ⟨3⟩ := by
  have hrun : (run twoChildren {⟨1⟩} ∅ {⟨0⟩} askedOps).map (fun b => (b.halter.halted,
      b.forceAcceptedCalled, b.blocked.queue.db.jobs, b.blocked.queue.missingIDs)) =
      some (false, true, {⟨2⟩}, {⟨3⟩}) := by decide +kernel
  obtain ⟨b, hb, hobs⟩ := Option.map_eq_some_iff.mp hrun
  simp only [Prod.mk.injEq] at hobs
  obtain ⟨hhalted, hcalled, hjobs, hmissing⟩ := hobs
  obtain ⟨hkept, hasked, -⟩ := run_tracked twoChildren twoChildren_wf _ _ _ _ b hb
  refine ⟨b, hb, hkept, hjobs, hmissing, hasked ⟨trivial, fun b1 hb1 => ⟨?_, fun b2 hb2 =>
    ⟨?_, fun _ _ => trivial⟩⟩⟩ hhalted hcalled _ (hmissing ▸ mem_singleton_self _)⟩
  · -- the answer is the block
    have hfirst : (run twoChildren {⟨1⟩} ∅ {⟨0⟩} (askedOps.take 1)).map
        (fun b => (b.outstandingRequests.remove ⟨0⟩ 1).1) = some (some ⟨2⟩) := by decide +kernel
    rw [show run twoChildren {⟨1⟩} ∅ {⟨0⟩} (askedOps.take 1) = some b1 from
      Option.bind_eq_some_iff.mpr ⟨b1, hb1, rfl⟩, Option.map_some, Option.some.injEq] at hfirst
    intro blkID _ hblkID hnot
    cases hfirst.symm.trans hblkID
    exact absurd ⟨[], by decide +kernel⟩ hnot
  · -- the virtual machine does not have the block
    have hsecond : (run twoChildren {⟨1⟩} ∅ {⟨0⟩} (askedOps.take 2)).map
        (fun b => ((b.outstandingRequests.remove ⟨0⟩ 2).1, b.blocked.completed, b.known)) =
        some (some ⟨3⟩, {⟨1⟩}, {⟨2⟩}) := by decide +kernel
    have hb2' : run twoChildren {⟨1⟩} ∅ {⟨0⟩} (askedOps.take 2) = some b2 := by
      rw [run, show askedOps.take 2 = [_, _] from rfl, List.foldlM_cons, hb1]
      exact Option.bind_eq_some_iff.mpr ⟨b1, rfl, Option.bind_eq_some_iff.mpr ⟨b2, hb2, rfl⟩⟩
    rw [hb2', Option.map_some, Option.some.injEq, Prod.mk.injEq, Prod.mk.injEq] at hsecond
    obtain ⟨hremove, haccepted, hknown⟩ := hsecond
    intro blkID _ hblkID
    cases hremove.symm.trans hblkID
    rw [haccepted, hknown]
    decide

/-- The request for block 2 is answered with block 3, and block 2 behind it. -/
def wrongAnswerOps : List (Op × Call) :=
  [(.forceAccepted [⟨2⟩], succeeds), (.ancestors ⟨0⟩ 1 [[3], [2]] {⟨2⟩}, succeeds)]

/-- A virtual machine that keeps the blocks it parses leaves a missing block without a request. -/
theorem exists_unasked : ∃ b, run twoChildren {⟨1⟩} ∅ {⟨0⟩} wrongAnswerOps = some b ∧
    b.halter.halted = false ∧ b.forceAcceptedCalled = true ∧ ⟨2⟩ ∈ b.blocked.queue.missingIDs ∧
    b.outstandingRequests.reqsToID.keys = ∅ := by
  have hrun : (run twoChildren {⟨1⟩} ∅ {⟨0⟩} wrongAnswerOps).map (fun b => (b.halter.halted,
      b.forceAcceptedCalled, b.blocked.queue.missingIDs,
      b.outstandingRequests.reqsToID.keys)) =
      some (false, true, {⟨2⟩}, ∅) := by
    decide +kernel
  obtain ⟨b, hb, hobs⟩ := Option.map_eq_some_iff.mp hrun
  simp only [Prod.mk.injEq] at hobs
  refine ⟨b, hb, hobs.1, hobs.2.1, ?_, hobs.2.2.2⟩
  rw [hobs.2.2.1]
  exact mem_singleton_self _

end SavannahNode.SnowmanBootstrap
