import Mathlib.Data.Finset.Card
import SavannahNode.ForStd.Proc
import SavannahNode.ForStd.RangeOrder
import SavannahNode.Native.Ids
import SavannahNode.Native.LruCache

/-!
# The job queue of bootstrapping

`snow/engine/common/queue`: jobs with dependencies, kept in a database until they are executed.
`Jobs` writes through a `versiondb` that is committed as a whole; `JobsWithMissing` also keeps
the IDs that are still to be fetched.

A `linkeddb` is the list of its keys here, newest first (`Spec.LinkedDBRun`), and the parser
returns the job whose bytes were stored, so that a job is its ID. The databases do not fail.
The cache of `linkeddb`s, the metrics and the acceptors are left out.
-/

namespace SavannahNode.Queue

/-- `LinkedDB.Put` with no value. -/
def putKey (l : List ID) (key : ID) : List ID := if key ∈ l then l else key :: l

/-- `LinkedDB.Delete`. -/
def deleteKey (l : List ID) (key : ID) : List ID := l.filter fun k => k ≠ key

/-- What the queue stores. -/
structure JobsDB where
  jobs : Finset ID
  runnableJobIDs : List ID
  /-- The list of dependents of every dependency. -/
  dependents : ID → List ID
  missingJobIDs : List ID
  /-- The value under `numJobsKey`. -/
  numJobs : Option Nat

/-- `Jobs` with its `state`. -/
structure Jobs where
  /-- The database under the `versiondb`. -/
  disk : JobsDB
  /-- The `versiondb`. -/
  db : JobsDB
  cachingEnabled : Bool
  jobsCache : LRU ID ID
  numJobs : Nat

/-- What the jobs are about. -/
structure Env where
  /-- The dependencies of a job. -/
  deps : ID → Finset ID
  order : RangeOrder ID

/-- `MissingDependencies`, where some jobs are completed. -/
def Env.missing (env : Env) (completed : Finset ID) (jobID : ID) : Finset ID :=
  env.deps jobID \ completed

/-- `jobsCacheSize`. -/
def jobsCacheSize : Int := 2048

namespace Jobs

section

variable (env : Env) (completed : Finset ID) (j : Jobs) (job : ID)

/-- `New`. -/
def new (disk : JobsDB) : Jobs where
  disk
  db := disk
  cachingEnabled := true
  jobsCache := { size := jobsCacheSize, entries := [] }
  numJobs := disk.numJobs.getD disk.jobs.card

/-- `HasJob`. -/
def hasJob (id : ID) : Bool × Jobs :=
  if j.cachingEnabled then
    match j.jobsCache.get id with
    | (some _, jobsCache) => (true, { j with jobsCache })
    | (none, jobsCache) => (id ∈ j.db.jobs, { j with jobsCache })
  else (id ∈ j.db.jobs, j)

/-- `GetJob`; `none` is `ErrNotFound`. -/
def getJob (id : ID) : Option ID × Jobs :=
  if j.cachingEnabled then
    match j.jobsCache.get id with
    | (some job, jobsCache) => (some job, { j with jobsCache })
    | (none, jobsCache) =>
      if id ∈ j.db.jobs then (some id, { j with jobsCache := jobsCache.put id id })
      else (none, { j with jobsCache })
  else (if id ∈ j.db.jobs then some id else none, j)

/-- `PutJob`. -/
def putJob : Jobs :=
  { j with
    jobsCache := if j.cachingEnabled then j.jobsCache.put job job else j.jobsCache
    numJobs := j.numJobs + 1
    db := { j.db with jobs := insert job j.db.jobs, numJobs := some (j.numJobs + 1) } }

/-- `AddRunnableJob`. -/
def addRunnableJob (jobID : ID) : Jobs :=
  { j with db := { j.db with runnableJobIDs := putKey j.db.runnableJobIDs jobID } }

/-- `AddDependency`. -/
def addDependency (dependency dependent : ID) : Jobs :=
  let dependents := putKey (j.db.dependents dependency) dependent
  { j with db := { j.db with dependents := Function.update j.db.dependents dependency dependents } }

/-- `RemoveDependencies`: the list is iterated, and each key deleted. -/
def removeDependencies (dependency : ID) : List ID × Jobs :=
  (j.db.dependents dependency,
    { j with db := { j.db with dependents := Function.update j.db.dependents dependency [] } })

/-- `DisableCaching`. -/
def disableCaching : Jobs :=
  { j with jobsCache := { j.jobsCache with entries := [] }, cachingEnabled := false }

/-- The part of `Push` after the check for the job. -/
def pushNew : Jobs :=
  let deps := env.missing completed job
  let j := j.putJob job
  if deps.card ≠ 0 then
    (env.order.list deps).foldl (fun j depID => j.addDependency depID job) j
  else j.addRunnableJob job

/-- `Push`. -/
def push : Bool × Jobs :=
  match j.hasJob job with
  | (true, j) => (false, j)
  | (false, j) => (true, j.pushNew env completed job)

end

/-- `Commit`. -/
def commit (j : Jobs) : Jobs := { j with disk := j.db }

/-- `Clear`. The dependents are under prefixes that `prefixdb.New` hashes once more, so iterating
    over `dependenciesDB` does not find them. -/
def clear (j : Jobs) : Jobs :=
  { j with
    jobsCache := { j.jobsCache with entries := [] }
    numJobs := 0
    db :=
      { j.db with
        jobs := ∅
        runnableJobIDs := j.db.runnableJobIDs.foldl deleteKey j.db.runnableJobIDs
        missingJobIDs := j.db.missingJobIDs.foldl deleteKey j.db.missingJobIDs
        numJobs := some 0 } }

end Jobs

/-- `JobsWithMissing`. -/
structure JobsWithMissing extends Jobs where
  missingIDs : Finset ID
  removeFromMissingIDs : Finset ID
  addToMissingIDs : Finset ID

/-- The errors of the queue. -/
inductive JobErr where
  /-- `database.ErrNotFound`. -/
  | notFound
  /-- A job of another list is not stored. -/
  | getJob
  /-- `Execute` failed. -/
  | execute
deriving DecidableEq

namespace JobsWithMissing

/-- `NewWithMissing`. -/
def new (disk : JobsDB) : JobsWithMissing where
  toJobs := .new disk
  missingIDs := disk.missingJobIDs.toFinset
  removeFromMissingIDs := ∅
  addToMissingIDs := ∅

variable (env : Env) (completed : Finset ID) (jm : JobsWithMissing)

/-- `Has`. -/
def has (jobID : ID) : Bool × JobsWithMissing :=
  if jobID ∈ jm.missingIDs then (false, jm)
  else ((jm.toJobs.hasJob jobID).1, { jm with toJobs := (jm.toJobs.hasJob jobID).2 })

/-- `Push`. -/
def push (job : ID) : Bool × JobsWithMissing :=
  match jm.has job with
  | (true, jm) => (false, jm)
  | (false, jm) => (true, { jm with toJobs := jm.toJobs.pushNew env completed job })

/-- One step of `AddMissingID`. -/
def addMissingID (jobID : ID) : JobsWithMissing :=
  if jobID ∈ jm.missingIDs then jm
  else
    { jm with
      missingIDs := insert jobID jm.missingIDs
      addToMissingIDs := insert jobID jm.addToMissingIDs
      removeFromMissingIDs := jm.removeFromMissingIDs.erase jobID }

/-- One step of `RemoveMissingID`. -/
def removeMissingID (jobID : ID) : JobsWithMissing :=
  if jobID ∈ jm.missingIDs then
    { jm with
      missingIDs := jm.missingIDs.erase jobID
      addToMissingIDs := jm.addToMissingIDs.erase jobID
      removeFromMissingIDs := insert jobID jm.removeFromMissingIDs }
  else jm

/-- `AddMissingJobIDs` and `RemoveMissingJobIDs` of `Commit`. -/
def writeMissing (l : List ID) : List ID :=
  (env.order.list jm.removeFromMissingIDs).foldl deleteKey
    ((env.order.list jm.addToMissingIDs).foldl putKey l)

/-- `Commit`. -/
def commit (env : Env) (jm : JobsWithMissing) : JobsWithMissing :=
  let db := { jm.db with missingJobIDs := jm.writeMissing env jm.db.missingJobIDs }
  { jm with
    toJobs := { jm.toJobs with db }.commit
    addToMissingIDs := ∅
    removeFromMissingIDs := ∅ }

/-- `Clear`. -/
def clear (env : Env) (jm : JobsWithMissing) : JobsWithMissing :=
  let missingJobIDs := (env.order.list jm.missingIDs).foldl deleteKey jm.db.missingJobIDs
  { toJobs := { jm.toJobs with db := { jm.db with missingJobIDs } }.clear
    missingIDs := ∅
    removeFromMissingIDs := ∅
    addToMissingIDs := ∅ }

/-- One step of the loop of `cleanRunnableStack`. -/
def cleanRunnableJob (jobID : ID) : Except JobErr JobsWithMissing :=
  match jm.toJobs.getJob jobID with
  | (none, _) => .error .getJob
  | (some job, j) =>
    let jm := { jm with toJobs := j }
    let deps := env.missing completed job
    if deps.card = 0 then .ok jm
    else
      let db := { jm.db with runnableJobIDs := deleteKey jm.db.runnableJobIDs jobID }
      let jm := { jm with toJobs := { jm.toJobs with db } }
      let jm := (env.order.list deps).foldl addMissingID jm
      .ok { jm with
        toJobs := (env.order.list deps).foldl (fun j depID => j.addDependency depID jobID) jm.toJobs }

/-- `cleanRunnableStack`: the stack is iterated while jobs are deleted from it. -/
def cleanRunnableStack : Except JobErr JobsWithMissing := do
  let jm ← jm.db.runnableJobIDs.foldlM (cleanRunnableJob env completed) jm
  pure (jm.commit env)

end JobsWithMissing

/-! ## ExecuteAll -/

/-- A queue, and the jobs that are completed, which are stored elsewhere. -/
structure World where
  queue : JobsWithMissing
  completed : Finset ID
  /-- The calls of `Execute`, each with what was completed before it. -/
  calls : List (ID × Finset ID)

/-- A part of `ExecuteAll`. -/
abbrev JobM (α : Type) := Proc World JobErr α

namespace World

/-- A part that only changes the jobs. -/
def onJobs {α : Type} (f : Jobs → α × Jobs) : JobM α := fun w =>
  (.ok (f w.queue.toJobs).1,
    { w with queue := { w.queue with toJobs := (f w.queue.toJobs).2 } })

/-- The job, if it is stored. -/
def getJob (jobID : ID) (e : JobErr) : JobM ID := do
  match ← onJobs fun j => j.getJob jobID with
  | some job => pure job
  | none => .fail e

/-- `RemoveRunnableJob`. -/
def removeRunnableJob : JobM ID := do
  match ← Proc.read fun w => w.queue.db.runnableJobIDs.head? with
  | none => .fail .notFound
  | some jobID => do
    onJobs fun j =>
      ((), { j with db := { j.db with runnableJobIDs := deleteKey j.db.runnableJobIDs jobID } })
    let job ← getJob jobID .notFound
    onJobs fun j => ((), { j with db := { j.db with jobs := j.db.jobs.erase jobID } })
    onJobs fun j =>
      ((), if j.numJobs = 0 then j
        else
          { j with
            numJobs := j.numJobs - 1
            db := { j.db with numJobs := some (j.numJobs - 1) } })
    pure job

/-- `Execute` of a job, which may fail. -/
def execute (fails : ID → Bool) (job : ID) : JobM Unit := do
  Proc.update fun w => { w with calls := w.calls ++ [(job, w.completed)] }
  if fails job then .fail .execute
  else Proc.update fun w => { w with completed := insert job w.completed }

/-- The dependents of a job that was executed: those without missing dependencies can run. -/
def wake (env : Env) : List ID → JobM Unit
  | [] => pure ()
  | dependentID :: dependentIDs => do
    let job ← getJob dependentID .getJob
    let hasMissingDeps ← Proc.read fun w => decide ((env.missing w.completed job).card ≠ 0)
    if hasMissingDeps then wake env dependentIDs
    else do
      onJobs fun j => ((), j.addRunnableJob dependentID)
      wake env dependentIDs

/-- One iteration up to the execution of the job. -/
def executeNextOf (execute : ID → JobM Unit) : JobM ID := do
  let job ← removeRunnableJob
  execute job
  pure job

/-- The same for jobs that `Execute` completes unless it fails. -/
def executeNext (fails : ID → Bool) : JobM ID := executeNextOf (execute fails)

/-- The rest of an iteration. -/
def release (env : Env) (jobID : ID) : JobM Unit := do
  let dependentIDs ← onJobs fun j => j.removeDependencies jobID
  wake env dependentIDs
  onJobs fun j => ((), j.commit)

/-- The loop of `ExecuteAll`. `halted n` is what the halter says after `n` jobs. -/
def executeLoop (env : Env) (execute : ID → JobM Unit) (halted : Nat → Bool) : Nat → Nat → JobM Nat
  | 0, numExecuted => pure numExecuted
  | fuel + 1, numExecuted =>
    if halted numExecuted then pure numExecuted
    else do
      match ← (executeNextOf execute).attempt with
      | .error .notFound => pure numExecuted
      | .error e => .fail e
      | .ok jobID => do
        release env jobID
        executeLoop env execute halted fuel (numExecuted + 1)

/-- `ExecuteAll`. Every iteration removes a stored job. -/
def executeAllOf (env : Env) (execute : ID → JobM Unit) (halted : Nat → Bool) : JobM Nat := do
  onJobs fun j => ((), j.disableCaching)
  let fuel ← Proc.read fun w => w.queue.db.jobs.card + 1
  executeLoop env execute halted fuel 0

/-- `ExecuteAll` of jobs that `Execute` completes unless it fails. -/
def executeAll (env : Env) (fails : ID → Bool) (halted : Nat → Bool) : JobM Nat :=
  executeAllOf env (execute fails) halted

end World

end SavannahNode.Queue
