import SavannahNode.Native.Choices
import SavannahNode.Spec.MissingJobs

/-!
# Runs of the job queue

Pushes, commits, executions that are halted or crash, and re-openings of the queue, in any
order. If jobs are executed only when nothing is uncommitted, no job is lost: an execution that
runs to the end leaves exactly the jobs that a missing dependency holds back. If a pushed job is
executed before it was committed, a crash can complete it without waking the jobs that wait for
it.

## Key results

* `Queue.run_kept` — every run that executes nothing uncommitted.
* `Queue.exists_lost_job` — a job that is never woken.
-/

namespace SavannahNode.Queue

open Finset JobsWithMissing List World

/-- The calls of a queue, and crashes. -/
inductive Op where
  | push (job : ID)
  | commit
  /-- `ExecuteAll`; after an error the node stops, and the queue is opened again. -/
  | executeAll (fails : ID → Bool) (halted : Nat → Bool)
  /-- A crash in `ExecuteAll` after `n` jobs and the execution of one more, before the commit. -/
  | crashIn (fails : ID → Bool) (n : Nat)
  /-- A crash elsewhere. -/
  | crash

section

variable (env : Env) (withMissing : Bool) (w : World)

/-- Open the queue again, from what is in the database. -/
def World.reopen : Option World :=
  if withMissing then
    match (JobsWithMissing.new w.queue.disk).cleanRunnableStack env w.completed with
    | .ok queue => some { w with queue }
    | .error _ => none
  else some { w with queue :=
    { toJobs := .new w.queue.disk, missingIDs := ∅, removeFromMissingIDs := ∅, addToMissingIDs := ∅ } }

/-- One call on a `Jobs` or a `JobsWithMissing`. -/
def step : Op → Option World
  | .push job =>
    if withMissing then some { w with queue := (w.queue.push env w.completed job).2 }
    else some { w with queue :=
      { w.queue with toJobs := (w.queue.toJobs.push env w.completed job).2 } }
  | .commit =>
    if withMissing then some { w with queue := w.queue.commit env }
    else some { w with queue := { w.queue with toJobs := w.queue.toJobs.commit } }
  | .executeAll fails halted =>
    match (executeAll env fails halted).exec w with
    | (.ok _, w) => some w
    | (.error _, w) => w.reopen env withMissing
  | .crashIn fails n =>
    match (executeAll env fails fun i => n ≤ i).exec w with
    | (.ok _, w) => ((executeNext fails).exec w).2.reopen env withMissing
    | (.error _, w) => w.reopen env withMissing
  | .crash => w.reopen env withMissing

/-- An empty queue, where some jobs are completed already. -/
def start (completed : Finset ID) : World where
  queue :=
    { toJobs := .new
        { jobs := ∅, runnableJobIDs := [], dependents := fun _ => [], missingJobIDs := [], numJobs := none }
      missingIDs := ∅
      removeFromMissingIDs := ∅
      addToMissingIDs := ∅ }
  completed
  calls := []

/-- Jobs are executed only when nothing is uncommitted. -/
def Op.Settled : Op → Prop
  | .executeAll _ _ => w.queue.db = w.queue.disk
  | .crashIn _ _ => w.queue.db = w.queue.disk
  | _ => True

/-- A job is pushed that is not completed, and none of its completed dependencies is still stored
    if it has to wait. -/
def Op.Fresh : Op → Prop
  | .push job => job ∉ w.completed ∧
    (env.deps job ⊆ w.completed ∨ ∀ d ∈ env.deps job, d ∈ w.completed → d ∉ w.queue.db.jobs)
  | _ => True

/-! ## What every call keeps -/

/-- The invariant of a run. -/
structure World.Inv (env : Env) (w : World) : Prop extends World.Durable env w where
  closed : ∀ id ∈ w.completed, env.deps id ⊆ w.completed
  view : Sound env w.completed [] w.queue.db
  loaded : w.queue.toJobs.Loaded
  missingIDs : w.queue.missingIDs = ∅
  addToMissingIDs : w.queue.addToMissingIDs = ∅
  removeFromMissingIDs : w.queue.removeFromMissingIDs = ∅
  missingJobIDs : w.queue.disk.missingJobIDs = []
  viewMissingJobIDs : w.queue.db.missingJobIDs = []

/-- Both the database and the uncommitted state have all registrations. -/
def World.AllRegistered : Prop := Registered env w.queue.disk ∧ Registered env w.queue.db

end

variable {env : Env} {withMissing : Bool} {w w' : World} {op : Op}

namespace World

/-- The stack of a queue that is opened is clean. -/
theorem reopen_true (h : Durable env w) :
    ∃ jobsCache, Jobs.Loaded { Jobs.new w.queue.disk with jobsCache } ∧
      w.reopen env true = some { w with queue :=
        { new w.queue.disk with
          toJobs := { Jobs.new w.queue.disk with jobsCache } } } := by
  have hnew : (new w.queue.disk).toJobs.Loaded := Jobs.loaded_new h.sound.count
  obtain ⟨jobsCache, hloaded, hclean⟩ :=
    cleanRunnableStack_of_ready env w.completed hnew h.sound.stored h.sound.ready
  rw [commit_of_settled env rfl rfl rfl] at hclean
  refine ⟨jobsCache, hloaded, ?_⟩
  rw [reopen, if_pos rfl, hclean]
  rfl

/-- A queue that is opened has what was in the database. -/
theorem reopen_inv (withMissing : Bool) (h : Durable env w)
    (hclosed : ∀ id ∈ w.completed, env.deps id ⊆ w.completed)
    (hmissing : w.queue.disk.missingJobIDs = []) :
    ∃ w', w.reopen env withMissing = some w' ∧ Inv env w' ∧ w'.queue.db = w.queue.disk ∧
      w'.queue.disk = w.queue.disk := by
  cases withMissing with
  | false =>
    exact ⟨_, rfl, ⟨⟨h.sound, h.calls⟩, hclosed, h.sound, Jobs.loaded_new h.sound.count, rfl, rfl,
      rfl, hmissing, hmissing⟩, rfl, rfl⟩
  | true =>
    obtain ⟨jobsCache, hloaded, hreopen⟩ := reopen_true h
    refine ⟨_, hreopen, ?_, rfl, rfl⟩
    refine ⟨⟨h.sound, h.calls⟩, hclosed, h.sound, hloaded, ?_, rfl, rfl, hmissing, hmissing⟩
    show w.queue.disk.missingJobIDs.toFinset = ∅
    rw [hmissing]
    rfl

theorem step_push (h : Inv env w) (job : ID) : step env withMissing w (.push job) =
    some { w with queue := { w.queue with toJobs := (w.queue.toJobs.push env w.completed job).2 } } := by
  cases withMissing with
  | false => rfl
  | true =>
    have hnot : job ∉ w.queue.missingIDs := by
      rw [h.missingIDs]
      exact notMem_empty job
    rw [step, if_pos rfl, push_eq env w.completed hnot]

/-- `Push` of either kind of queue. -/
theorem push_inv (h : Inv env w) (job : ID) :
    ∃ w', step env withMissing w (.push job) = some w' ∧ Inv env w' ∧
      (AllRegistered env w → job ∉ env.deps job → Op.Fresh env w (.push job) →
        AllRegistered env w') := by
  obtain ⟨-, hdb, hdisk, hloaded⟩ := h.loaded.push env w.completed job
  refine ⟨_, step_push h job, ⟨⟨?_, h.calls⟩, h.closed, ?_, hloaded, h.missingIDs, h.addToMissingIDs,
    h.removeFromMissingIDs, ?_, ?_⟩, fun hreg hacyclic hfresh => ⟨?_, ?_⟩⟩
  · exact (congrArg (Sound env w.completed []) hdisk).mpr h.sound
  · refine (congrArg (Sound env w.completed []) hdb).mpr ?_
    split
    · exact h.view
    · exact h.view.push ‹_›
  · exact (congrArg JobsDB.missingJobIDs hdisk).trans h.missingJobIDs
  · refine (congrArg JobsDB.missingJobIDs hdb).trans ?_
    split
    · exact h.viewMissingJobIDs
    · exact h.viewMissingJobIDs
  · exact (congrArg (Registered env) hdisk).mpr hreg.1
  · refine (congrArg (Registered env) hdb).mpr ?_
    split
    · exact hreg.2
    · exact hreg.2.push h.view hfresh.1 hacyclic hfresh.2

theorem step_commit (h : Inv env w) : step env withMissing w .commit =
    some { w with queue := { w.queue with toJobs := w.queue.toJobs.commit } } := by
  cases withMissing with
  | false => rfl
  | true =>
    rw [step, if_pos rfl, commit_of_empty env h.addToMissingIDs h.removeFromMissingIDs]

/-- `Commit` of either kind of queue. -/
theorem commit_inv (h : Inv env w) : ∃ w', step env withMissing w .commit = some w' ∧ Inv env w' ∧
      (AllRegistered env w → AllRegistered env w') := by
  refine ⟨_, step_commit h, ⟨⟨h.view, h.calls⟩, h.closed, h.view, { h.loaded with },
    h.missingIDs, h.addToMissingIDs, h.removeFromMissingIDs, h.viewMissingJobIDs,
    h.viewMissingJobIDs⟩, fun hreg => ⟨hreg.2, hreg.2⟩⟩

/-- What `ExecuteAll` leaves after an error can be opened. -/
theorem Since.reopen_inv (withMissing : Bool) (h : Inv env w) (hdurable : Durable env w')
    (hsince : Since env w w') :
    ∃ w'', w'.reopen env withMissing = some w'' ∧ Inv env w'' ∧
      (AllRegistered env w → AllRegistered env w'') := by
  obtain ⟨w'', hreopen, hinv, hdb, hdisk⟩ := World.reopen_inv withMissing hdurable
    (hsince.closed h.closed) (hsince.missingJobIDs.trans h.missingJobIDs)
  refine ⟨w'', hreopen, hinv, fun hreg => ⟨?_, ?_⟩⟩
  · rw [hdisk]
    exact hsince.registered hreg.1
  · rw [hdb]
    exact hsince.registered hreg.1

theorem Running.inv (h : Inv env w) (hrunning : Running env w') (hsince : Since env w w') :
    Inv env w' ∧ (AllRegistered env w → AllRegistered env w') := by
  have hmissing : w'.queue.disk.missingJobIDs = [] := hsince.missingJobIDs.trans h.missingJobIDs
  refine ⟨⟨hrunning.toDurable, hsince.closed h.closed, ?_, ⟨hrunning.numJobs, fun hcaching => ?_⟩,
    hsince.missingIDs.trans h.missingIDs, hsince.addToMissingIDs.trans h.addToMissingIDs,
    hsince.removeFromMissingIDs.trans h.removeFromMissingIDs, hmissing, ?_⟩, fun hreg => ⟨?_, ?_⟩⟩
  · rw [hrunning.committed]
    exact hrunning.sound
  · rw [hrunning.uncached] at hcaching
    cases hcaching
  · rw [hrunning.committed]
    exact hmissing
  · exact hsince.registered hreg.1
  · rw [hrunning.committed]
    exact hsince.registered hreg.1

/-- `ExecuteAll`, with a restart after an error. -/
theorem executeAll_inv (h : Inv env w) (fails : ID → Bool) (halted : Nat → Bool)
    (hsettled : w.queue.db = w.queue.disk) :
    ∃ w', step env withMissing w (.executeAll fails halted) = some w' ∧ Inv env w' ∧
      (AllRegistered env w → AllRegistered env w') := by
  obtain ⟨hdurable, hsince, hok⟩ := executeAll_wp fails halted h.toDurable hsettled h.loaded
  rw [step]
  cases hexec : (executeAll env fails halted).exec w with
  | mk r w' =>
    rw [hexec] at hdurable hsince hok
    cases r with
    | error e => exact hsince.reopen_inv withMissing h hdurable
    | ok n =>
      obtain ⟨hrunning, -⟩ := hok n rfl
      exact ⟨w', rfl, hrunning.inv h hsince⟩

/-- A crash between the execution of a job and the commit. -/
theorem crashIn_inv (h : Inv env w) (fails : ID → Bool) (n : Nat)
    (hsettled : w.queue.db = w.queue.disk) :
    ∃ w', step env withMissing w (.crashIn fails n) = some w' ∧ Inv env w' ∧
      (AllRegistered env w → AllRegistered env w') := by
  obtain ⟨hdurable, hsince, hok⟩ :=
    executeAll_wp fails (fun i => n ≤ i) h.toDurable hsettled h.loaded
  rw [step]
  cases hexec : (executeAll env fails fun i => n ≤ i).exec w with
  | mk r w' =>
    rw [hexec] at hdurable hsince hok
    cases r with
    | error e => exact hsince.reopen_inv withMissing h hdurable
    | ok m =>
      obtain ⟨hrunning, -⟩ := hok m rfl
      have hnext : (executeNext fails).wp (fun _ w'' => Durable env w'' ∧ Since env w' w'') w' :=
        executeNextOf_wp hrunning (fun _ _ _ _ => rfl) (fun _ => ⟨hrunning.toDurable, .refl w'⟩)
          (fun _ hdurable hsince => ⟨hdurable, hsince⟩) fun _ _ hex => ⟨hex.durable, hex.since⟩
      exact (hsince.trans hnext.2).reopen_inv withMissing h hnext.1

end World

/-- Every call that executes nothing uncommitted keeps the invariant. -/
theorem step_inv (withMissing : Bool) (hacyclic : ∀ id, id ∉ env.deps id) (h : w.Inv env)
    (hsettled : op.Settled w) :
    ∃ w', step env withMissing w op = some w' ∧ w'.Inv env ∧
      (op.Fresh env w → w.AllRegistered env → w'.AllRegistered env) := by
  cases op with
  | push job =>
    obtain ⟨w', hstep, hinv, hreg⟩ := push_inv h job
    exact ⟨w', hstep, hinv, fun hfresh h => hreg h (hacyclic job) hfresh⟩
  | commit =>
    obtain ⟨w', hstep, hinv, hreg⟩ := commit_inv h
    exact ⟨w', hstep, hinv, fun _ => hreg⟩
  | executeAll fails halted =>
    obtain ⟨w', hstep, hinv, hreg⟩ := executeAll_inv h fails halted hsettled
    exact ⟨w', hstep, hinv, fun _ => hreg⟩
  | crashIn fails n =>
    obtain ⟨w', hstep, hinv, hreg⟩ := crashIn_inv h fails n hsettled
    exact ⟨w', hstep, hinv, fun _ => hreg⟩
  | crash =>
    obtain ⟨w', hstep, hinv, hreg⟩ := (World.Since.refl w).reopen_inv withMissing h h.toDurable
    exact ⟨w', hstep, hinv, fun _ => hreg⟩

theorem sound_start (env : Env) (C : Finset ID) : Sound env C [] (start C).queue.disk := by
  refine ⟨fun n hn => ?_, fun id hid => absurd hid not_mem_nil,
    fun id hid => absurd hid not_mem_nil, fun id hid => absurd hid (notMem_empty id),
    fun id hid => absurd hid (notMem_empty id)⟩
  cases hn

theorem loaded_start (C : Finset ID) : (start C).queue.toJobs.Loaded :=
  ⟨rfl, fun _ _ he => absurd he not_mem_nil⟩

theorem start_inv {C : Finset ID} (hclosed : ∀ id ∈ C, env.deps id ⊆ C) : (start C).Inv env :=
  ⟨⟨sound_start env C, fun _ hc => absurd hc not_mem_nil⟩, hclosed, sound_start env C,
    loaded_start C, rfl, rfl, rfl, rfl, rfl⟩

/-! ## Traversals that start again -/

namespace Traversed

variable {parents : ID → Finset ID} {low : ID → Prop} {targets holes : Finset ID}

theorem start (env : Env) (parents : ID → Finset ID) (low : ID → Prop) (C : Finset ID) :
    Traversed env parents low ∅ ∅ (start C) := by
  refine ⟨⟨sound_start env C, fun _ hc => absurd hc not_mem_nil⟩, sound_start env C,
    loaded_start C, fun id => ?_, fun id hid => absurd hid (notMem_empty id),
    fun id hid => absurd hid (notMem_empty id), fun id hid => absurd hid (notMem_empty id)⟩
  rw [writeMissing_of_empty rfl rfl]
  exact ⟨fun hid => absurd hid (notMem_empty id), fun hid => absurd hid not_mem_nil⟩

/-- What is stored is a traversal in which nothing is about to be visited. -/
theorem reopen (h : Traversed env parents low targets holes w) (low' : ID → Prop)
    (hlow : ∀ id, low id → low' id) :
    ∃ w', w.reopen env true = some w' ∧ w'.completed = w.completed ∧ w'.queue.db = w'.queue.disk ∧
      Traversed env parents low' ∅ ∅ w' := by
  obtain ⟨jobsCache, hloaded, hreopen⟩ := reopen_true h.toDurable
  have hcovers : ∀ id ∈ w.queue.disk.jobs, ∀ p ∈ parents id,
      Covered low' w.completed w.queue.disk.jobs w.queue.disk.missingJobIDs.toFinset p :=
    fun id hid p hp => (h.stored id hid p hp).imp hlow
  refine ⟨_, hreopen, rfl, rfl, ⟨h.sound, h.calls⟩, h.sound, hloaded, fun id => ?_,
    fun id hid p hp _ => hcovers id hid p hp, fun id hid => absurd hid (notMem_empty id), hcovers⟩
  rw [writeMissing_of_empty rfl rfl]
  exact mem_toFinset

end Traversed

/-! ## Executions that run to the end -/

/-- A transitive dependency. -/
def TransitiveDep (env : Env) : ID → ID → Prop := Relation.TransGen fun id d => d ∈ env.deps id

/-- The transitive dependencies of completed jobs are completed. -/
theorem TransitiveDep.completed {C : Finset ID} (hclosed : ∀ id ∈ C, env.deps id ⊆ C) {id m : ID}
    (h : TransitiveDep env id m) (hid : env.deps id ⊆ C) : m ∈ C := by
  induction h with
  | single hd => exact hid hd
  | tail _ hd ih => exact hclosed _ ih hd

/-- With an empty stack, every stored job is held back by a dependency that is neither completed
    nor stored. -/
theorem Sound.exists_missing {C : Finset ID} {q : JobsDB} (h : Sound env C [] q)
    (hdag : WellFounded fun d id => d ∈ env.deps id) (hempty : q.runnableJobIDs = []) (id : ID)
    (hid : id ∈ q.jobs) : ∃ m, TransitiveDep env id m ∧ m ∉ C ∧ m ∉ q.jobs := by
  induction id using hdag.induction with
  | _ id ih =>
    have hnot : ∀ id, id ∉ q.runnableJobIDs := by simp [hempty]
    obtain ⟨d, hd, -, hwake⟩ := h.waits id hid (hnot id) not_mem_nil
    have hC : d ∉ C := hwake.resolve_right (hnot d)
    by_cases hstored : d ∈ q.jobs
    · obtain ⟨m, hm, hmC, hmq⟩ := ih d hd hstored
      exact ⟨m, .head hd hm, hmC, hmq⟩
    · exact ⟨d, .single hd, hC, hstored⟩

/-- `ExecuteAll` that runs to the end leaves exactly the jobs that are held back. -/
theorem World.Inv.executeAll (h : w.Inv env) (hdag : WellFounded fun d id => d ∈ env.deps id)
    (hsettled : w.queue.db = w.queue.disk) (fails : ID → Bool) {n : Nat}
    (hexec : ((executeAll env fails fun _ => false).exec w).1 = .ok n) (id : ID) :
    let w' := ((executeAll env fails fun _ => false).exec w).2
    id ∈ w'.queue.db.jobs ↔ id ∈ w.queue.db.jobs ∧
      ∃ m, TransitiveDep env id m ∧ m ∉ w'.completed ∧ m ∉ w'.queue.db.jobs := by
  intro w'
  obtain ⟨-, hsince, hok⟩ := executeAll_wp fails (fun _ => false) h.toDurable hsettled h.loaded
  obtain ⟨hrunning, hempty⟩ := hok n hexec
  have hempty := hempty rfl
  constructor
  · intro hid
    refine ⟨?_, ?_⟩
    · rw [hsettled]
      exact hsince.jobs (hrunning.committed ▸ hid)
    · have hsound : Sound env w'.completed [] w'.queue.db := hrunning.committed ▸ hrunning.sound
      exact hsound.exists_missing hdag hempty id hid
  rintro ⟨hid, m, hm, hC, -⟩
  rw [hsettled] at hid
  rcases hsince.done id hid with hid | hdone
  · exact hrunning.committed ▸ hid
  -- a job that was executed has no missing dependency
  have hclosed := hsince.closed h.closed
  exact absurd (hm.completed hclosed (hclosed id hdone)) hC

/-! ## Runs -/

/-- A run from an empty queue. -/
def run (env : Env) (withMissing : Bool) (C : Finset ID) (ops : List Op) : Option World :=
  ops.foldlM (step env withMissing) (start C)

/-- What holds of the queue, in the database and with what is uncommitted. -/
structure Kept (env : Env) (w : World) : Prop where
  /-- The count is the number of stored jobs. -/
  count : ∀ q ∈ [w.queue.disk, w.queue.db], ∀ n ∈ q.numJobs, n = q.jobs.card
  /-- A job can run, or is registered under every missing dependency. -/
  registered : ∀ q ∈ [w.queue.disk, w.queue.db], ∀ id ∈ q.jobs, id ∈ q.runnableJobIDs ∨
    ∀ d ∈ env.deps id, d ∉ w.completed → id ∈ q.dependents d
  /-- `Execute` was called only on jobs without missing dependencies. -/
  calls : ∀ c ∈ w.calls, env.deps c.1 ⊆ c.2
  /-- An execution that runs to the end leaves exactly the jobs that are held back. -/
  executeAll : w.queue.db = w.queue.disk → ∀ fails n,
    ((executeAll env fails fun _ => false).exec w).1 = .ok n →
    ∀ id, id ∈ ((executeAll env fails fun _ => false).exec w).2.queue.db.jobs ↔
      id ∈ w.queue.db.jobs ∧ ∃ m, TransitiveDep env id m ∧
        m ∉ ((executeAll env fails fun _ => false).exec w).2.completed ∧
        m ∉ ((executeAll env fails fun _ => false).exec w).2.queue.db.jobs

theorem World.Inv.kept (h : w.Inv env) (hdag : WellFounded fun d id => d ∈ env.deps id) :
    Kept env w := by
  have hboth : ∀ q ∈ [w.queue.disk, w.queue.db], Sound env w.completed [] q := by
    intro q hq
    simp only [List.mem_cons, List.not_mem_nil, or_false] at hq
    rcases hq with rfl | rfl
    · exact h.sound
    · exact h.view
  refine ⟨fun q hq => (hboth q hq).count, fun q hq id hid => ?_, h.calls,
    fun hsettled fails n hexec id => h.executeAll hdag hsettled fails hexec id⟩
  by_cases hrun : id ∈ q.runnableJobIDs
  · exact .inl hrun
  · exact .inr ((hboth q hq).registered id hid hrun)

/-- The queue neither loses nor misorders jobs, in every run that executes nothing uncommitted.
    If the jobs that are pushed are new, a waiting job is also registered under every dependency
    that is still stored. -/
theorem run_kept (env : Env) (hdag : WellFounded fun d id => d ∈ env.deps id) (withMissing : Bool)
    (C : Finset ID) (hclosed : ∀ id ∈ C, env.deps id ⊆ C) (ops : List Op)
    (hsettled : List.Throughout (fun w op => op.Settled w) (step env withMissing) (start C) ops) :
    ∃ w, run env withMissing C ops = some w ∧ Kept env w ∧
      (List.Throughout (fun w op => op.Settled w ∧ op.Fresh env w) (step env withMissing) (start C) ops →
        ∀ q ∈ [w.queue.disk, w.queue.db], ∀ id ∈ q.jobs, id ∈ q.runnableJobIDs ∨
          ∀ d ∈ env.deps id, d ∉ w.completed ∨ d ∈ q.jobs → id ∈ q.dependents d) := by
  have hacyclic : ∀ id, id ∉ env.deps id := fun id hid => hdag.irrefl.irrefl id hid
  obtain ⟨w, hrun, hinv⟩ := List.Throughout.foldlM (I := World.Inv env)
    (fun w op h hop => by
      obtain ⟨w', hstep, hinv, -⟩ := step_inv withMissing hacyclic h hop
      exact ⟨w', hstep, hinv⟩) (start_inv hclosed) hsettled
  refine ⟨w, hrun, hinv.kept hdag, fun hfresh q hq id hid => ?_⟩
  obtain ⟨w', hrun', -, hreg⟩ := List.Throughout.foldlM
    (I := fun w : World => w.Inv env ∧ w.AllRegistered env)
    (fun w op h hop => by
      obtain ⟨w', hstep, hinv, hreg⟩ := step_inv withMissing hacyclic h.1 hop.1
      exact ⟨w', hstep, hinv, hreg hop.2 h.2⟩)
    ⟨start_inv hclosed, fun id hid => absurd hid (notMem_empty id),
      fun id hid => absurd hid (notMem_empty id)⟩ hfresh
  obtain rfl : w = w' := Option.some.inj (hrun.symm.trans hrun')
  have hq' : Registered env q := by
    simp only [List.mem_cons, List.not_mem_nil, or_false] at hq
    rcases hq with rfl | rfl
    · exact hreg.1
    · exact hreg.2
  by_cases hrunnable : id ∈ q.runnableJobIDs
  · exact .inl hrunnable
  have hmissing := ((hinv.kept hdag).registered q hq id hid).resolve_left hrunnable
  exact .inr fun d hd hor => hor.elim (hmissing d hd) fun hstored =>
    hq' id hid hrunnable d hd hstored

/-! ## Two jobs -/

/-- Job 1 depends on job 0. -/
def twoJobs : Env where
  deps id := if id = ⟨1⟩ then {⟨0⟩} else ∅
  order := .ids

def noneFails : ID → Bool := fun _ => false

theorem twoJobs_dag : WellFounded fun d id => d ∈ twoJobs.deps id := by
  have hzero : Acc (fun d id => d ∈ twoJobs.deps id) ⟨0⟩ := by
    refine ⟨_, fun d hd => ?_⟩
    cases hd
  refine ⟨fun id => ⟨_, fun d hd => ?_⟩⟩
  dsimp only [twoJobs] at hd
  split at hd
  · rw [Finset.mem_singleton.mp hd]
    exact hzero
  · cases hd

/-- The dependent is pushed first, and both are executed. -/
def settledOps : List Op := [.push ⟨1⟩, .push ⟨0⟩, .commit, .executeAll noneFails fun _ => false]

theorem settledOps_settled :
    List.Throughout (fun w op => op.Settled w) (step twoJobs true) (start ∅) settledOps := by
  refine ⟨trivial, fun w1 _ => ⟨trivial, fun w2 _ => ⟨trivial, fun w3 h3 => ⟨?_, fun _ _ => trivial⟩⟩⟩⟩
  cases h3
  rfl

theorem run_kept_twoJobs :
    (run twoJobs true ∅ settledOps).map (fun w => (w.calls.map Prod.fst, w.queue.db.jobs)) =
      some ([⟨0⟩, ⟨1⟩], ∅) ∧
    ∃ w, run twoJobs true ∅ settledOps = some w ∧ Kept twoJobs w := by
  obtain ⟨w, hrun, hkept, -⟩ := run_kept twoJobs twoJobs_dag true ∅
    (fun id hid => absurd hid (notMem_empty id)) settledOps settledOps_settled
  exact ⟨by decide +kernel, w, hrun, hkept⟩

/-- Job 1 is committed, job 0 is not when it is executed before a crash. -/
def lostOps : List Op := [.push ⟨1⟩, .commit, .push ⟨0⟩, .crashIn noneFails 0]

/-- Job 1 stays stored although its only dependency is completed. -/
theorem exists_lost_job : ∃ w, run twoJobs true ∅ lostOps = some w ∧
      ((executeAll twoJobs noneFails fun _ => false).exec w).1 = .ok 0 ∧
      ⟨1⟩ ∈ ((executeAll twoJobs noneFails fun _ => false).exec w).2.queue.db.jobs ∧
      ¬∃ m, TransitiveDep twoJobs ⟨1⟩ m ∧
        m ∉ ((executeAll twoJobs noneFails fun _ => false).exec w).2.completed ∧
        m ∉ ((executeAll twoJobs noneFails fun _ => false).exec w).2.queue.db.jobs := by
  have hobserved : (run twoJobs true ∅ lostOps).map (fun w =>
      let r := (executeAll twoJobs noneFails fun _ => false).exec w
      (r.1.toOption, r.2.queue.db.jobs, r.2.completed)) = some (some 0, {⟨1⟩}, {⟨0⟩}) := by
    decide +kernel
  obtain ⟨w, hrun, heq⟩ := Option.map_eq_some_iff.mp hobserved
  obtain ⟨hresult, heq⟩ := Prod.mk.inj heq
  obtain ⟨hjobs, hcompleted⟩ := Prod.mk.inj heq
  refine ⟨w, hrun, ?_, ?_, ?_⟩
  · cases hr : ((executeAll twoJobs noneFails fun _ => false).exec w).1 with
    | error e =>
      rw [hr] at hresult
      cases hresult
    | ok n =>
      rw [hr] at hresult
      cases hresult
      rfl
  · rw [hjobs]
    exact Finset.mem_singleton_self _
  rintro ⟨m, hm, hC, -⟩
  rw [hcompleted] at hC
  exact hC (hm.completed (by decide) (by decide))

end SavannahNode.Queue
