import SavannahNode.Spec.JobQueueInvariant

/-!
# Queues of jobs that are still being fetched

A bootstrapper walks from the jobs it wants to their parents. Every parent it has not come to yet
is in the set of missing IDs of the queue, or is about to be visited. `Traversed` says so of the
state in memory, where some IDs are about to be visited, and of what is stored, where none is.

## Key results

* `Queue.Traversed` — the invariant, with one lemma for each operation of the queue.
* `Queue.completed_iff` — what an execution that runs to the end completes.
* `Queue.Traversed.finished` — when nothing is missing, an execution that runs to the end
  completes every job that is wanted.
-/

namespace SavannahNode.Queue

open Finset JobsWithMissing

namespace JobsWithMissing

variable {env : Env} {jm : JobsWithMissing} {id job : ID} {l : List ID}

/-! ## The missing IDs -/

section

variable (jm : JobsWithMissing) (id : ID)

@[simp] theorem missingIDs_addMissingID :
    (jm.addMissingID id).missingIDs = insert id jm.missingIDs := by
  rw [addMissingID]
  split
  · exact (insert_eq_of_mem ‹_›).symm
  · rfl

@[simp] theorem toJobs_addMissingID : (jm.addMissingID id).toJobs = jm.toJobs := by
  rw [addMissingID]
  split
  · rfl
  · rfl

@[simp] theorem missingIDs_removeMissingID :
    (jm.removeMissingID id).missingIDs = jm.missingIDs.erase id := by
  rw [removeMissingID]
  split
  · rfl
  · exact (erase_eq_of_notMem ‹_›).symm

@[simp] theorem toJobs_removeMissingID : (jm.removeMissingID id).toJobs = jm.toJobs := by
  rw [removeMissingID]
  split
  · rfl
  · rfl

end

/-- The two kinds of queue push alike a job that is not missing. -/
theorem push_eq (env : Env) (C : Finset ID) (h : job ∉ jm.missingIDs) : jm.push env C job =
      ((jm.toJobs.push env C job).1, { jm with toJobs := (jm.toJobs.push env C job).2 }) := by
  have hhas : jm.has job = ((jm.toJobs.hasJob job).1, { jm with toJobs := (jm.toJobs.hasJob job).2 }) := by
    rw [has, if_neg h]
  rw [push, Jobs.push, hhas]
  cases jm.toJobs.hasJob job with
  | mk has j =>
    cases has with
    | true => rfl
    | false => rfl

theorem mem_foldl_putKey (ks l : List ID) : id ∈ ks.foldl putKey l ↔ id ∈ l ∨ id ∈ ks := by
  induction ks generalizing l with
  | nil => simp
  | cons k ks ih =>
    rw [List.foldl_cons, ih, mem_putKey, List.mem_cons]
    tauto

theorem mem_foldl_deleteKey (ks l : List ID) : id ∈ ks.foldl deleteKey l ↔ id ∈ l ∧ id ∉ ks := by
  induction ks generalizing l with
  | nil => simp
  | cons k ks ih =>
    rw [List.foldl_cons, ih, mem_deleteKey, List.mem_cons]
    tauto

theorem mem_writeMissing : id ∈ jm.writeMissing env l ↔
    (id ∈ l ∨ id ∈ jm.addToMissingIDs) ∧ id ∉ jm.removeFromMissingIDs := by
  rw [writeMissing, mem_foldl_deleteKey, mem_foldl_putKey, env.order.mem_list, env.order.mem_list]

/-- A commit would store exactly the missing IDs. -/
def Synced (env : Env) (jm : JobsWithMissing) : Prop :=
  ∀ id, id ∈ jm.missingIDs ↔ id ∈ jm.writeMissing env jm.db.missingJobIDs

theorem Synced.addMissingID (h : jm.Synced env) (id : ID) : (jm.addMissingID id).Synced env := by
  intro k
  have hk := h k
  rw [mem_writeMissing] at hk
  rw [missingIDs_addMissingID, mem_writeMissing, toJobs_addMissingID, JobsWithMissing.addMissingID]
  split
  · rename_i hmem
    rw [insert_eq_of_mem hmem, hk]
  by_cases heq : k = id
  · subst heq
    simp
  · simp [heq, hk]

theorem Synced.removeMissingID (h : jm.Synced env) (id : ID) : (jm.removeMissingID id).Synced env := by
  intro k
  have hk := h k
  rw [mem_writeMissing] at hk
  rw [missingIDs_removeMissingID, mem_writeMissing, toJobs_removeMissingID,
    JobsWithMissing.removeMissingID]
  split
  · by_cases heq : k = id
    · subst heq
      simp
    · simp [heq, hk]
  rename_i hmem
  rw [erase_eq_of_notMem hmem, hk]

/-- After a commit the missing IDs are stored. -/
theorem Synced.toFinset_commit (h : jm.Synced env) :
    (jm.commit env).disk.missingJobIDs.toFinset = jm.missingIDs := by
  ext id
  rw [List.mem_toFinset]
  exact (h id).symm

theorem Synced.commit (h : jm.Synced env) : (jm.commit env).Synced env := by
  intro id
  have hcommit := congrArg (id ∈ ·) h.toFinset_commit
  rw [List.mem_toFinset] at hcommit
  show id ∈ jm.missingIDs ↔ _
  rw [writeMissing_of_empty rfl rfl, ← hcommit]
  rfl

end JobsWithMissing

/-! ## Traversals -/

/-- Nothing has to be done for the ID any more, or the queue knows about it. -/
def Covered (low : ID → Prop) (C jobs missing : Finset ID) (id : ID) : Prop :=
  id ∈ C ∨ low id ∨ id ∈ jobs ∨ id ∈ missing

variable {low : ID → Prop} {C C' jobs jobs' missing missing' : Finset ID} {id : ID}

theorem Covered.mono (h : Covered low C jobs missing id) (hC : C ⊆ C')
    (hjobs : ∀ id ∈ jobs, id ∈ jobs' ∨ id ∈ C') (hmissing : missing ⊆ missing') :
    Covered low C' jobs' missing' id := by
  rcases h with h | h | h | h
  · exact .inl (hC h)
  · exact .inr (.inl h)
  · rcases hjobs id h with h | h
    · exact .inr (.inr (.inl h))
    · exact .inl h
  · exact .inr (.inr (.inr (hmissing h)))

theorem Covered.imp {low' : ID → Prop} (h : Covered low C jobs missing id)
    (hlow : ∀ id, low id → low' id) : Covered low' C jobs missing id :=
  h.imp_right fun h => h.imp_left (hlow id)

/-- A job that cannot be executed: a dependency is neither completed nor stored, or cannot be
    executed itself. -/
inductive HeldBack (env : Env) (w : World) : ID → Prop
  | missing {id d : ID} (hid : id ∈ w.queue.db.jobs \ w.completed) (hd : d ∈ env.deps id)
    (hnot : d ∉ w.completed ∪ w.queue.db.jobs) : HeldBack env w id
  | waits {id d : ID} (hid : id ∈ w.queue.db.jobs \ w.completed) (hd : d ∈ env.deps id)
    (h : HeldBack env w d) : HeldBack env w id

/-- An execution that runs to the end completes exactly the jobs that are not held back. -/
theorem completed_iff {env : Env} {w w' : World} {id : ID}
    (hdag : WellFounded fun d id => d ∈ env.deps id) (hcommitted : w.queue.db = w.queue.disk)
    (hsince : World.Since env w w') (hrunning : World.Running env w')
    (hempty : w'.queue.db.runnableJobIDs = [])
    (hid : id ∈ w.completed ∨ id ∈ w.queue.db.jobs) : id ∈ w'.completed ↔ ¬HeldBack env w id := by
  have hready : ∀ id ∈ w'.completed, id ∈ w.completed ∨ id ∈ w.queue.db.jobs ∧
      env.deps id ⊆ w'.completed := hcommitted ▸ hsince.ready
  constructor
  · intro hdone hheld
    induction hheld with
    | @missing id d hjob hd hnot =>
      rcases hready id hdone with hC | ⟨-, hdeps⟩
      · exact (mem_sdiff.mp hjob).2 hC
      · exact hnot (mem_union.mpr ((hready d (hdeps hd)).imp_right And.left))
    | @waits id d hjob hd hheld ih =>
      have hdeps := ((hready id hdone).resolve_left (mem_sdiff.mp hjob).2).2
      exact ih ((hready d (hdeps hd)).imp_right And.left) (hdeps hd)
  intro hfree
  induction id using hdag.induction with
  | _ id ih =>
    by_cases hC : id ∈ w.completed
    · exact hsince.completed hC
    have hjob : id ∈ w.queue.db.jobs \ w.completed := mem_sdiff.mpr ⟨hid.resolve_left hC, hC⟩
    rcases hsince.done id (hcommitted ▸ hid.resolve_left hC) with hleft | hdone
    swap
    · exact hdone
    -- a job that is left waits for a dependency, which is then not completed either
    have hsound : Sound env w'.completed [] w'.queue.db := hrunning.committed ▸ hrunning.sound
    have hnot : ∀ k, k ∉ w'.queue.db.runnableJobIDs := by simp [hempty]
    obtain ⟨d, hd, -, hwake⟩ := hsound.waits id (hrunning.committed ▸ hleft) (hnot id)
      List.not_mem_nil
    have hstored : d ∈ w.completed ∪ w.queue.db.jobs := by
      by_contra hnot'
      exact hfree (.missing hjob hd hnot')
    exact absurd (ih d hd (mem_union.mp hstored) fun h => hfree (.waits hjob hd h))
      (hwake.resolve_right (hnot d))

/-- The invariant of a traversal of `parents` from some targets, where the IDs in `holes` are
    about to be visited. What is `low` need not be visited. -/
structure Traversed (env : Env) (parents : ID → Finset ID) (low : ID → Prop) (targets : Finset ID)
    (holes : Finset ID) (w : World) : Prop extends World.Durable env w where
  view : Sound env w.completed [] w.queue.db
  loaded : w.queue.toJobs.Loaded
  synced : w.queue.Synced env
  covers : ∀ id ∈ w.queue.db.jobs, ∀ p ∈ parents id, p ∉ holes →
    Covered low w.completed w.queue.db.jobs w.queue.missingIDs p
  reached : ∀ id ∈ targets, id ∉ holes →
    Covered low w.completed w.queue.db.jobs w.queue.missingIDs id
  stored : ∀ id ∈ w.queue.disk.jobs, ∀ p ∈ parents id,
    Covered low w.completed w.queue.disk.jobs w.queue.disk.missingJobIDs.toFinset p

namespace Traversed

variable {env : Env} {parents : ID → Finset ID} {targets holes holes' : Finset ID} {w w' : World}
  {job : ID}

section

variable (h : Traversed env parents low targets holes w)

include h

/-- Something is covered that was about to be visited. -/
theorem close
    (hclosed : ∀ id ∈ holes, id ∉ holes' →
      Covered low w.completed w.queue.db.jobs w.queue.missingIDs id) :
    Traversed env parents low targets holes' w := by
  refine ⟨h.toDurable, h.view, h.loaded, h.synced, fun id hid p hp hnot => ?_,
    fun id hid hnot => ?_, h.stored⟩
  · by_cases hhole : p ∈ holes
    · exact hclosed p hhole hnot
    · exact h.covers id hid p hp hhole
  · by_cases hhole : id ∈ holes
    · exact hclosed id hhole hnot
    · exact h.reached id hid hhole

theorem mono (hsub : holes ⊆ holes') : Traversed env parents low targets holes' w :=
  h.close fun _ hid hnot => absurd (hsub hid) hnot

/-- `AddMissingID` covers an ID. -/
theorem addMissingID (id : ID) : Traversed env parents low targets (holes.erase id)
      { w with queue := w.queue.addMissingID id } := by
  have hcovered : ∀ k, k ∉ holes.erase id →
      (k ∉ holes → Covered low w.completed w.queue.db.jobs w.queue.missingIDs k) →
      Covered low w.completed w.queue.db.jobs (insert id w.queue.missingIDs) k := by
    intro k hk hcov
    by_cases heq : k = id
    · exact .inr (.inr (.inr (heq ▸ mem_insert_self _ _)))
    have hnot : k ∉ holes := fun hmem => hk (mem_erase.mpr ⟨heq, hmem⟩)
    exact (hcov hnot).mono subset_rfl (fun _ => .inl) (subset_insert _ _)
  refine ⟨⟨?_, h.calls⟩, ?_, ?_, h.synced.addMissingID id, fun j hj p hp hnot => ?_,
    fun k hk hnot => ?_, ?_⟩
  · simpa using h.sound
  · simpa using h.view
  · simpa using h.loaded
  · rw [toJobs_addMissingID] at hj
    simpa using hcovered p hnot fun hnot => h.covers j hj p hp hnot
  · simpa using hcovered k hnot fun hnot => h.reached k hk hnot
  · simpa using h.stored

/-- An ID that `RemoveMissingID` removes has to be visited. -/
theorem removeMissingID (id : ID) : Traversed env parents low targets (insert id holes)
      { w with queue := w.queue.removeMissingID id } := by
  have hcovered : ∀ k, k ∉ insert id holes →
      (k ∉ holes → Covered low w.completed w.queue.db.jobs w.queue.missingIDs k) →
      Covered low w.completed w.queue.db.jobs (w.queue.missingIDs.erase id) k := by
    intro k hk hcov
    rw [mem_insert, not_or] at hk
    rcases hcov hk.2 with hcov | hcov | hcov | hcov
    · exact .inl hcov
    · exact .inr (.inl hcov)
    · exact .inr (.inr (.inl hcov))
    · exact .inr (.inr (.inr (mem_erase.mpr ⟨hk.1, hcov⟩)))
  refine ⟨⟨?_, h.calls⟩, ?_, ?_, h.synced.removeMissingID id, fun j hj p hp hnot => ?_,
    fun k hk hnot => ?_, ?_⟩
  · simpa using h.sound
  · simpa using h.view
  · simpa using h.loaded
  · rw [toJobs_removeMissingID] at hj
    simpa using hcovered p hnot fun hnot => h.covers j hj p hp hnot
  · simpa using hcovered k hnot fun hnot => h.reached k hk hnot
  · simpa using h.stored

/-- What `Push` does to the stored jobs. -/
theorem push_fst (hjob : job ∉ w.queue.missingIDs) :
    (w.queue.push env w.completed job).1 = decide (job ∉ w.queue.db.jobs) := by
  rw [push_eq env w.completed hjob]
  exact (h.loaded.push env w.completed job).1

theorem jobs_push (hjob : job ∉ w.queue.missingIDs) :
    (w.queue.push env w.completed job).2.db.jobs = insert job w.queue.db.jobs := by
  rw [push_eq env w.completed hjob]
  rw [(h.loaded.push env w.completed job).2.1]
  split
  · exact (insert_eq_of_mem ‹_›).symm
  · rfl

end

theorem missingIDs_push (env : Env) (hjob : job ∉ w.queue.missingIDs) :
    (w.queue.push env w.completed job).2.missingIDs = w.queue.missingIDs := by
  rw [push_eq env w.completed hjob]

theorem disk_push (h : Traversed env parents low targets holes w) (hjob : job ∉ w.queue.missingIDs) :
    (w.queue.push env w.completed job).2.disk = w.queue.disk := by
  rw [push_eq env w.completed hjob]
  exact (h.loaded.push env w.completed job).2.2.1

/-- A job is pushed that was about to be visited: its parents are next, if it is new. -/
theorem push (h : Traversed env parents low targets holes w) (hjob : job ∉ w.queue.missingIDs)
    (hholes : ∀ id ∈ holes, id = job ∨ id ∈ holes')
    (hparents : job ∉ w.queue.db.jobs → parents job ⊆ holes') :
    Traversed env parents low targets holes'
      { w with queue := (w.queue.push env w.completed job).2 } := by
  obtain ⟨-, hdb, hdisk, hloaded⟩ := h.loaded.push env w.completed job
  have hjobs := h.jobs_push hjob
  have hmissing := missingIDs_push env hjob
  have hcovered : ∀ k, k ∉ holes' →
      (k ∉ holes → Covered low w.completed w.queue.db.jobs w.queue.missingIDs k) →
      Covered low w.completed (insert job w.queue.db.jobs) w.queue.missingIDs k := by
    intro k hk hcov
    by_cases heq : k = job
    · exact .inr (.inr (.inl (heq ▸ mem_insert_self _ _)))
    have hnot : k ∉ holes := fun hmem => (hholes k hmem).elim heq hk
    exact (hcov hnot).mono subset_rfl (fun _ hid => .inl (mem_insert_of_mem hid)) subset_rfl
  refine ⟨⟨?_, h.calls⟩, ?_, ?_, ?_, fun j hj p hp hnot => ?_, fun k hk hnot => ?_, ?_⟩
  · exact (congrArg (Sound env w.completed []) (h.disk_push hjob)).mpr h.sound
  · have heq : (w.queue.push env w.completed job).2.db =
        if job ∈ w.queue.db.jobs then w.queue.db else w.queue.db.pushed env w.completed job := by
      rw [push_eq env w.completed hjob]
      exact hdb
    refine (congrArg (Sound env w.completed []) heq).mpr ?_
    split
    · exact h.view
    · exact h.view.push ‹_›
  · rw [push_eq env w.completed hjob]
    exact hloaded
  · rw [push_eq env w.completed hjob]
    have heq : (w.queue.toJobs.push env w.completed job).2.db.missingJobIDs =
        w.queue.db.missingJobIDs := by
      rw [hdb]
      split
      · rfl
      · rfl
    intro k
    have hk := h.synced k
    rw [heq]
    exact hk
  · have hj' : j ∈ (w.queue.push env w.completed job).2.db.jobs := hj
    rw [hjobs] at hj' ⊢
    rw [hmissing]
    by_cases hstored : j ∈ w.queue.db.jobs
    · exact hcovered p hnot fun hnot => h.covers j hstored p hp hnot
    -- the new job itself
    obtain rfl : j = job := (mem_insert.mp hj').resolve_right hstored
    exact absurd (hparents hstored hp) hnot
  · rw [hjobs, hmissing]
    exact hcovered k hnot fun hnot => h.reached k hk hnot
  · have heq := h.disk_push hjob
    intro j hj p hp
    have hj' : j ∈ (w.queue.push env w.completed job).2.disk.jobs := hj
    rw [heq] at hj' ⊢
    exact h.stored j hj' p hp

section

variable (h : Traversed env parents low targets ∅ w)

include h

/-- A commit between two visits. -/
theorem commit : Traversed env parents low targets ∅ { w with queue := w.queue.commit env } := by
  have hview : Sound env w.completed []
      { w.queue.db with missingJobIDs := w.queue.writeMissing env w.queue.db.missingJobIDs } :=
    { h.view with }
  refine ⟨⟨hview, h.calls⟩, hview, { h.loaded with }, h.synced.commit, h.covers,
    h.reached, fun id hid p hp => ?_⟩
  rw [h.synced.toFinset_commit]
  exact h.covers id hid p hp (notMem_empty p)

/-- What an execution leaves. -/
theorem executed (hcommitted : w.queue.db = w.queue.disk) (hrunning : World.Running env w')
    (hsince : World.Since env w w') : Traversed env parents low targets ∅ w' := by
  have hview : Sound env w'.completed [] w'.queue.db := by
    rw [hrunning.committed]
    exact hrunning.sound
  have hjobs : ∀ id ∈ w.queue.disk.jobs, id ∈ w'.queue.disk.jobs ∨ id ∈ w'.completed := hsince.done
  have hcovered : ∀ k, Covered low w.completed w.queue.db.jobs w.queue.missingIDs k →
      Covered low w'.completed w'.queue.db.jobs w'.queue.missingIDs k := by
    intro k hk
    rw [hrunning.committed, hsince.missingIDs]
    rw [hcommitted] at hk
    exact hk.mono hsince.completed hjobs subset_rfl
  refine ⟨hrunning.toDurable, hview, ⟨hrunning.numJobs, fun hcaching => ?_⟩, fun id => ?_,
    fun id hid p hp hnot => ?_, fun id hid hnot => hcovered id (h.reached id hid hnot),
    fun id hid p hp => ?_⟩
  · rw [hrunning.uncached] at hcaching
    cases hcaching
  · rw [mem_writeMissing, hrunning.committed, hsince.missingIDs,
      hsince.missingJobIDs, hsince.addToMissingIDs, hsince.removeFromMissingIDs, h.synced id,
      mem_writeMissing, hcommitted]
  · rw [hrunning.committed] at hid
    refine hcovered p (h.covers id ?_ p hp hnot)
    rw [hcommitted]
    exact hsince.jobs hid
  · rw [hsince.missingJobIDs]
    exact (h.stored id (hsince.jobs hid) p hp).mono hsince.completed hjobs subset_rfl

/-- When nothing is missing, an execution that runs to the end completes exactly the targets that
    are not held back. -/
theorem finished (hdag : WellFounded fun d id => d ∈ env.deps id)
    (hcommitted : w.queue.db = w.queue.disk) (hmissing : w.queue.missingIDs = ∅)
    (hsince : World.Since env w w') (hrunning : World.Running env w')
    (hempty : w'.queue.db.runnableJobIDs = []) :
    ∀ id ∈ targets, ¬low id → (id ∈ w'.completed ↔ ¬HeldBack env w id) := by
  intro id hid hhigh
  refine completed_iff hdag hcommitted hsince hrunning hempty ?_
  rcases h.reached id hid (notMem_empty id) with hcov | hcov | hcov | hcov
  · exact .inl hcov
  · exact absurd hcov hhigh
  · exact .inr hcov
  · rw [hmissing] at hcov
    exact absurd hcov (notMem_empty id)

end

end Traversed

end SavannahNode.Queue
