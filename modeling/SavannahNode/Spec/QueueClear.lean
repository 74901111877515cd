import SavannahNode.Spec.JobQueueRun

/-!
# Clearing the job queue

`Clear` leaves the lists of dependents. If there are none, the queue is as good as a new one: two
queues of the same `view` answer all calls alike, whatever their caches are.
-/

namespace SavannahNode.Queue

/-- The calls on a queue. -/
inductive Call where
  | push (job : ID)
  | has (jobID : ID)
  | executeAll (fails : ID → Bool) (halted : Nat → Bool)

namespace World

open Proc JobsWithMissing

/-- A call that changes the queue only. -/
def onQueue (f : World → Bool × JobsWithMissing) : JobM Nat := fun w =>
  (.ok (f w).1.toNat, { w with queue := (f w).2 })

def call (env : Env) : Call → JobM Nat
  | .push job => onQueue fun w => w.queue.push env w.completed job
  | .has jobID => onQueue fun w => w.queue.has jobID
  | .executeAll fails halted => executeAll env fails halted

/-- What calls return, and after each the jobs executed so far, `MissingIDs` and `PendingJobs`. -/
def answers (env : Env) : List Call → World →
    List (Except JobErr Nat × List (ID × Finset ID) × Finset ID × Nat)
  | [], _ => []
  | c :: calls, w =>
    let r := (call env c).exec w
    (r.1, r.2.calls, r.2.queue.missingIDs, r.2.queue.numJobs) :: answers env calls r.2

/-- A world without what no answer depends on. -/
def view (w : World) : World :=
  let db := { w.queue.db with missingJobIDs := [], numJobs := none }
  { w with queue :=
    { w.queue with
      toJobs := { w.queue.toJobs with disk := db, db, cachingEnabled := false, jobsCache := ⟨0, []⟩ }
      removeFromMissingIDs := ∅
      addToMissingIDs := ∅ } }

/-! ## ExecuteAll -/

/-- The same view, while caches are disabled. -/
def Alike (w w' : World) : Prop :=
  w.view = w'.view ∧ w.queue.cachingEnabled = false ∧ w'.queue.cachingEnabled = false

theorem of_view {α : Type} {x : JobM α} (h : ∀ w, w.queue.cachingEnabled = false →
    (x.exec w).1 = (x.exec w.view).1 ∧ (x.exec w).2.view = (x.exec w.view).2.view ∧
      (x.exec w).2.queue.cachingEnabled = false) : x.Respects Alike := by
  rintro w w' ⟨hview, hw, hw'⟩
  obtain ⟨hr, hv, hw⟩ := h w hw
  obtain ⟨hr', hv', hw'⟩ := h w' hw'
  rw [hr, hr', hview]
  exact ⟨rfl, hv.trans ((congrArg (fun w => (x.exec w).2.view) hview).trans hv'.symm), hw, hw'⟩

theorem respects_getJob (jobID : ID) (e : JobErr) : (getJob jobID e).Respects Alike := by
  have hget : ∀ j : Jobs, j.cachingEnabled = false →
      j.getJob jobID = (if jobID ∈ j.db.jobs then some jobID else none, j) := by
    intro j hj
    rw [Jobs.getJob, hj]
    rfl
  refine .bind (of_view fun w hw => ?_) fun found => ?_
  · simp only [exec, onJobs, hget _ hw, hget w.view.queue.toJobs rfl]
    exact ⟨rfl, rfl, hw⟩
  cases found with
  | none => exact of_view fun _ h => ⟨rfl, rfl, h⟩
  | some job => exact of_view fun _ h => ⟨rfl, rfl, h⟩

theorem respects_removeRunnableJob : removeRunnableJob.Respects Alike := by
  refine .bind (of_view fun _ h => ⟨rfl, rfl, h⟩) fun head => ?_
  cases head with
  | none => exact of_view fun _ h => ⟨rfl, rfl, h⟩
  | some jobID =>
    refine .bind (of_view fun _ h => ⟨rfl, rfl, h⟩) fun _ => ?_
    refine .bind (respects_getJob _ _) fun job => ?_
    refine .bind (of_view fun _ h => ⟨rfl, rfl, h⟩) fun _ => ?_
    refine .bind (of_view fun w hw => ?_) fun _ => of_view fun _ h => ⟨rfl, rfl, h⟩
    by_cases hn : w.queue.numJobs = 0
    · simp [onJobs, exec, hn, view, hw]
    · simp [onJobs, exec, hn, view, hw]

theorem respects_execute (fails : ID → Bool) (job : ID) : (execute fails job).Respects Alike := by
  refine .bind (of_view fun _ h => ⟨rfl, rfl, h⟩) fun _ => ?_
  cases fails job with
  | true => exact of_view fun _ h => ⟨rfl, rfl, h⟩
  | false => exact of_view fun _ h => ⟨rfl, rfl, h⟩

variable {env : Env} {w : World}

theorem respects_wake (l : List ID) : (wake env l).Respects Alike := by
  induction l with
  | nil => exact of_view fun _ h => ⟨rfl, rfl, h⟩
  | cons jobID l ih =>
    refine .bind (respects_getJob _ _) fun job => ?_
    refine .bind (of_view fun _ h => ⟨rfl, rfl, h⟩) fun hasMissingDeps => ?_
    cases hasMissingDeps with
    | true => exact ih
    | false => exact .bind (of_view fun _ h => ⟨rfl, rfl, h⟩) fun _ => ih

theorem respects_executeLoop (fails : ID → Bool) (halted : Nat → Bool) (fuel n : Nat) :
    (executeLoop env (execute fails) halted fuel n).Respects Alike := by
  have hnext : (executeNextOf (execute fails)).Respects Alike :=
    .bind respects_removeRunnableJob fun job => .bind (respects_execute fails job) fun _ =>
      of_view fun _ h => ⟨rfl, rfl, h⟩
  induction fuel generalizing n with
  | zero => exact of_view fun _ h => ⟨rfl, rfl, h⟩
  | succ fuel ih =>
    rw [executeLoop]
    split
    · exact of_view fun _ h => ⟨rfl, rfl, h⟩
    refine .bind (fun w w' h => ⟨congrArg Except.ok (hnext w w' h).1, (hnext w w' h).2⟩) fun r => ?_
    cases r with
    | error e => cases e <;> exact of_view fun _ h => ⟨rfl, rfl, h⟩
    | ok jobID =>
      refine .bind (.bind (of_view fun _ h => ⟨rfl, rfl, h⟩) fun l => ?_) fun _ => ih _
      exact .bind (respects_wake l) fun _ => of_view fun _ h => ⟨rfl, rfl, h⟩

/-! ## Calls -/

def setJobs (w : World) (toJobs : Jobs) : World := { w with queue := { w.queue with toJobs } }

theorem pushNew_view (h : w.queue.toJobs.Cached) (C : Finset ID) (job : ID) :
    (w.setJobs (w.queue.toJobs.pushNew env C job)).view =
      (w.view.setJobs (w.view.queue.toJobs.pushNew env C job)).view ∧
    (w.queue.toJobs.pushNew env C job).Cached := by
  rw [Jobs.pushNew, Jobs.pushNew]
  split
  · rw [Jobs.addDependencies_eq _ _ (env.order.nodup_list _),
      Jobs.addDependencies_eq _ _ (env.order.nodup_list _)]
    exact ⟨rfl, h.putJob job⟩
  · exact ⟨rfl, h.putJob job⟩

variable (env) in
/-- A call answers by the view. -/
theorem call_view (c : Call) (h : w.queue.toJobs.Cached) :
    ((call env c).exec w).1 = ((call env c).exec w.view).1 ∧
    ((call env c).exec w).2.view = ((call env c).exec w.view).2.view ∧
    ((call env c).exec w).2.queue.toJobs.Cached := by
  have hqueue : ∀ f (w : World), (onQueue f).exec w = (.ok (f w).1.toNat, { w with queue := (f w).2 }) :=
    fun _ _ => rfl
  -- whether a job is stored, by the cache or not
  have hhas : ∀ id, ∃ stored jobsCache, w.view.queue.has id = (stored, w.view.queue) ∧
      w.queue.has id = (stored, (w.setJobs { w.queue.toJobs with jobsCache }).queue) ∧
      Jobs.Cached { w.queue.toJobs with jobsCache } := by
    intro id
    obtain ⟨jobsCache, heq, hcached⟩ := h.hasJob id
    rw [has, has, heq]
    by_cases hmissing : id ∈ w.queue.missingIDs
    · exact ⟨_, _, if_pos hmissing, if_pos hmissing, h⟩
    · exact ⟨decide (id ∈ w.queue.db.jobs), _, if_neg hmissing, if_neg hmissing, hcached⟩
  cases c with
  | has jobID =>
    obtain ⟨stored, _, hview, hw, hcached⟩ := hhas jobID
    rw [call, hqueue, hqueue, hview, hw]
    exact ⟨rfl, rfl, hcached⟩
  | push job =>
    obtain ⟨stored, _, hview, hw, hcached⟩ := hhas job
    rw [call, hqueue, hqueue, push, push, hview, hw]
    cases stored with
    | true => exact ⟨rfl, rfl, hcached⟩
    | false => exact ⟨rfl, pushNew_view (w := w.setJobs _) hcached w.completed job⟩
  | executeAll fails halted =>
    -- both run without caches
    obtain ⟨hr, hsame, hw, -⟩ := Respects.bind (x := Proc.read fun w : World => w.queue.db.jobs.card + 1)
      (f := fun fuel => executeLoop env (execute fails) halted fuel 0)
      (of_view fun _ h => ⟨rfl, rfl, h⟩) (fun _ => respects_executeLoop _ _ _ _)
      (w.setJobs w.queue.toJobs.disableCaching) (w.view.setJobs w.view.queue.toJobs.disableCaching)
      ⟨rfl, rfl, rfl⟩
    exact ⟨hr, hsame, fun htrue => absurd (hw.symm.trans htrue) Bool.false_ne_true⟩

theorem answers_view (calls : List Call) (h : w.queue.toJobs.Cached) :
    answers env calls w = answers env calls w.view := by
  induction calls generalizing w with
  | nil => rfl
  | cons c calls ih =>
    obtain ⟨hr, hview, hcached⟩ := call_view env c h
    have hcached' := (call_view env (w := w.view) c fun hfalse => by cases hfalse).2.2
    have hseen := congrArg (fun w => (w.calls, w.queue.missingIDs, w.queue.numJobs)) hview
    rw [answers, answers, hr, ih hcached, ih hcached', hview]
    exact congrArg₂ _ (Prod.ext rfl hseen) rfl

/-! ## Clear -/

/-- `Clear` and `Commit`. -/
def cleared (env : Env) (w : World) : World := { w with queue := (w.queue.clear env).commit env }

/-- A new queue. -/
def fresh (w : World) : World := { start w.completed with calls := w.calls }

theorem foldl_deleteKey (l : List ID) : l.foldl deleteKey l = [] := by
  refine List.eq_nil_iff_forall_not_mem.2 fun id hid => ?_
  obtain ⟨hmem, hnot⟩ := (mem_foldl_deleteKey l l).1 hid
  exact hnot hmem

theorem commit_clear (env : Env) (w : World) (h : w.queue.db.dependents = fun _ => []) :
    (w.cleared env).queue.db = { (start ∅).queue.db with numJobs := some 0 } := by
  rw [cleared, commit_of_empty env rfl rfl]
  show (⟨∅, w.queue.db.runnableJobIDs.foldl deleteKey _, w.queue.db.dependents, _, some 0⟩ : JobsDB) = _
  rw [h, foldl_deleteKey, foldl_deleteKey]
  rfl

/-- A queue that is cleared, from whatever state without dependents, answers as a new one, at once
    and after it was opened again. -/
theorem answers_cleared (env : Env) (w : World) (h : w.queue.db.dependents = fun _ => [])
    (calls : List Call) : answers env calls (w.cleared env) = answers env calls w.fresh ∧
      ∃ w', (w.cleared env).reopen env true = some w' ∧
        answers env calls w' = answers env calls w.fresh := by
  have hsame : ∀ w' : World, w'.view = w.fresh.view → w'.queue.jobsCache.entries = [] →
      answers env calls w' = answers env calls w.fresh := by
    intro w' hview hentries
    rw [answers_view calls fun _ e he => ?_, hview]
    · exact (answers_view calls fun _ e he => absurd he List.not_mem_nil).symm
    · rw [hentries] at he
      cases he
  have hdb := commit_clear env w h
  have hdisk : (w.cleared env).queue.disk = { (start ∅).queue.db with numJobs := some 0 } := hdb
  have hreopen : (w.cleared env).reopen env true = some { w with queue :=
      (JobsWithMissing.new { (start ∅).queue.db with numJobs := some 0 }).commit env } := by
    rw [reopen, hdisk]
    rfl
  refine ⟨hsame _ ?_ rfl, _, hreopen, hsame _ rfl rfl⟩
  rw [view, hdb]
  rfl

/-- Job 0 runs in a queue from which job 1, which depends on it, was cleared. -/
theorem exists_left_dependent : ∃ w, run twoJobs true ∅ [.push ⟨1⟩, .commit] = some w ∧
    (answers twoJobs [.push ⟨0⟩, .executeAll noneFails fun _ => false] (w.cleared twoJobs)).map
      (·.1.toOption) = [some 1, none] ∧
    (answers twoJobs [.push ⟨0⟩, .executeAll noneFails fun _ => false] w.fresh).map
      (·.1.toOption) = [some 1, some 1] :=
  ⟨_, rfl, by decide +kernel, by decide +kernel⟩

/-- Job 0 was cleared; it and job 1 are pushed and executed, also after the queue was opened
    again. -/
theorem answers_cleared_push : ∃ w w', run twoJobs true ∅ [.push ⟨0⟩, .commit] = some w ∧
    (w.cleared twoJobs).reopen twoJobs true = some w' ∧
    let calls : List Call := [.push ⟨1⟩, .push ⟨0⟩, .executeAll noneFails fun _ => false]
    (answers twoJobs calls w.fresh).map (·.1.toOption) = [some 1, some 1, some 2] ∧
      answers twoJobs calls (w.cleared twoJobs) = answers twoJobs calls w.fresh ∧
      answers twoJobs calls w' = answers twoJobs calls w.fresh := by
  have hreopened {w w' : World} (h : w.queue.db.dependents = fun _ => [])
      (hw' : (w.cleared twoJobs).reopen twoJobs true = some w') (calls : List Call) :
      answers twoJobs calls w' = answers twoJobs calls w.fresh := by
    obtain ⟨_, hreopen, hsame⟩ := (answers_cleared twoJobs w h calls).2
    cases hw'.symm.trans hreopen
    exact hsame
  exact ⟨_, _, rfl, rfl, by decide +kernel, (answers_cleared twoJobs _ rfl _).1, hreopened rfl rfl _⟩

end World

end SavannahNode.Queue
