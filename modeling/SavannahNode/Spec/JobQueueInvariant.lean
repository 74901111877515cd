import SavannahNode.Native.JobQueue
import SavannahNode.Spec.LinkedDBRun

/-!
# What the job queue stores

A stored job can run, or it waits: it is registered under every dependency that is missing, and
under one that will wake it. This holds of the database and of the uncommitted state. It is kept
by every operation, if jobs are only executed when nothing is uncommitted: a job that is
executed stays on the stack of the database until the iteration is committed.

## Key results

* `Queue.Sound` — the invariant of what is stored.
* `Queue.Sound.push`, `Queue.Sound.executed`, `Queue.Sound.pop` — what the operations keep.
* `Queue.World.executeLoop_wp` — the loop of `ExecuteAll`.
-/

namespace SavannahNode.Queue

open Finset Function Proc

variable {env : Env} {C : Finset ID} {q : JobsDB} {l : List ID} {id key job d : ID}

/-! ## Lists of keys -/

theorem mem_putKey : id ∈ putKey l key ↔ id = key ∨ id ∈ l := by
  rw [putKey]
  split
  · constructor
    · exact .inr
    rintro (rfl | h)
    · assumption
    · exact h
  · exact List.mem_cons

theorem mem_deleteKey : id ∈ deleteKey l key ↔ id ∈ l ∧ id ≠ key := by simp [deleteKey]

/-! ## The invariant -/

/-- What is stored, where `C` are the completed jobs. The jobs in `pending` are about to be
    woken. -/
structure Sound (env : Env) (C : Finset ID) (pending : List ID) (q : JobsDB) : Prop where
  count : ∀ n ∈ q.numJobs, n = q.jobs.card
  stored : ∀ id ∈ q.runnableJobIDs, id ∈ q.jobs
  ready : ∀ id ∈ q.runnableJobIDs, env.deps id ⊆ C
  registered : ∀ id ∈ q.jobs, id ∉ q.runnableJobIDs → ∀ d ∈ env.deps id, d ∉ C → id ∈ q.dependents d
  waits : ∀ id ∈ q.jobs, id ∉ q.runnableJobIDs → id ∉ pending →
    ∃ d ∈ env.deps id, id ∈ q.dependents d ∧ (d ∉ C ∨ d ∈ q.runnableJobIDs)

/-- Every stored dependency of a waiting job is one that it is registered under. -/
def Registered (env : Env) (q : JobsDB) : Prop :=
  ∀ id ∈ q.jobs, id ∉ q.runnableJobIDs → ∀ d ∈ env.deps id, d ∈ q.jobs → id ∈ q.dependents d

/-- What is stored after a new job was pushed. -/
def JobsDB.pushed (env : Env) (C : Finset ID) (q : JobsDB) (job : ID) : JobsDB :=
  { jobs := insert job q.jobs
    runnableJobIDs := if env.missing C job = ∅ then putKey q.runnableJobIDs job else q.runnableJobIDs
    dependents := fun d => if d ∈ env.missing C job then putKey (q.dependents d) job else q.dependents d
    missingJobIDs := q.missingJobIDs
    numJobs := some (q.jobs.card + 1) }

theorem mem_missing : d ∈ env.missing C job ↔ d ∈ env.deps job ∧ d ∉ C := mem_sdiff

theorem missing_eq_empty : env.missing C job = ∅ ↔ env.deps job ⊆ C := sdiff_eq_empty_iff_subset

theorem mem_dependents_pushed (h : id ∈ q.dependents d) : id ∈ (q.pushed env C job).dependents d := by
  show id ∈ if d ∈ env.missing C job then putKey (q.dependents d) job else q.dependents d
  split
  · exact mem_putKey.mpr (.inr h)
  · exact h

theorem mem_runnable_pushed : id ∈ (q.pushed env C job).runnableJobIDs ↔
    id ∈ q.runnableJobIDs ∨ id = job ∧ env.deps job ⊆ C := by
  show id ∈ (if env.missing C job = ∅ then putKey q.runnableJobIDs job else q.runnableJobIDs) ↔ _
  split
  · rename_i h
    rw [mem_putKey, or_comm]
    simp [missing_eq_empty.mp h]
  rename_i h
  have hnot : ¬env.deps job ⊆ C := fun h' => h (missing_eq_empty.mpr h')
  simp [hnot]

/-- A job that is pushed can run, or is registered under what it misses. -/
theorem Sound.push (h : Sound env C [] q) (hjob : job ∉ q.jobs) :
    Sound env C [] (q.pushed env C job) := by
  have hnew : ∀ d ∈ env.missing C job, job ∈ (q.pushed env C job).dependents d := by
    intro d hd
    show job ∈ if d ∈ env.missing C job then putKey (q.dependents d) job else q.dependents d
    rw [if_pos hd]
    exact mem_putKey.mpr (.inl rfl)
  refine ⟨fun n hn => ?_, fun id hid => ?_, fun id hid => ?_, fun id hid hrun d hd hC => ?_,
    fun id hid hrun _ => ?_⟩
  · obtain rfl := Option.some.inj hn
    exact (card_insert_of_notMem hjob).symm
  · rcases mem_runnable_pushed.mp hid with hid | ⟨rfl, -⟩
    · exact mem_insert_of_mem (h.stored id hid)
    · exact mem_insert_self _ _
  · rcases mem_runnable_pushed.mp hid with hid | ⟨rfl, hdeps⟩
    · exact h.ready id hid
    · exact hdeps
  · rw [mem_runnable_pushed, not_or] at hrun
    rcases mem_insert.mp hid with rfl | hid
    · exact hnew d (mem_missing.mpr ⟨hd, hC⟩)
    · exact mem_dependents_pushed (h.registered id hid hrun.1 d hd hC)
  · rw [mem_runnable_pushed, not_or] at hrun
    rcases mem_insert.mp hid with rfl | hid
    · -- the new job misses a dependency
      obtain ⟨d, hd, hC⟩ := not_subset.mp fun hsub => hrun.2 ⟨rfl, hsub⟩
      exact ⟨d, hd, hnew d (mem_missing.mpr ⟨hd, hC⟩), .inl hC⟩
    obtain ⟨d, hd, hdep, hwake⟩ := h.waits id hid hrun.1 List.not_mem_nil
    exact ⟨d, hd, mem_dependents_pushed hdep, hwake.imp_right fun h => mem_runnable_pushed.mpr (.inl h)⟩

/-- A new job that is not completed keeps the registrations, if no completed dependency of it is
    still stored. -/
theorem Registered.push (h : Registered env q) (hs : Sound env C [] q)
    (hcompleted : job ∉ C) (hacyclic : job ∉ env.deps job)
    (hstale : env.deps job ⊆ C ∨ ∀ d ∈ env.deps job, d ∈ C → d ∉ q.jobs) :
    Registered env (q.pushed env C job) := by
  intro id hid hrun d hd hstored
  rw [mem_runnable_pushed, not_or] at hrun
  rcases mem_insert.mp hid with rfl | hidq
  · have hdq : d ∈ q.jobs := by
      rcases mem_insert.mp hstored with rfl | hdq
      · exact absurd hd hacyclic
      · exact hdq
    have hdC : d ∉ C := by
      rcases hstale with hsub | hstale
      · exact absurd ⟨rfl, hsub⟩ hrun.2
      · exact fun hdC => hstale d hd hdC hdq
    show id ∈ if d ∈ env.missing C id then putKey (q.dependents d) id else q.dependents d
    rw [if_pos (mem_missing.mpr ⟨hd, hdC⟩)]
    exact mem_putKey.mpr (.inl rfl)
  rcases mem_insert.mp hstored with rfl | hdq
  · exact mem_dependents_pushed (hs.registered id hidq hrun.1 d hd hcompleted)
  · exact mem_dependents_pushed (h id hidq hrun.1 d hd hdq)

/-- A job on the stack may be completed although it is still stored. -/
theorem Sound.executed (h : Sound env C [] q) (hjob : job ∈ q.runnableJobIDs) :
    Sound env (insert job C) [] q := by
  refine ⟨h.count, h.stored, fun id hid => (h.ready id hid).trans (subset_insert _ _),
    fun id hid hrun d hd hC => ?_, fun id hid hrun hp => ?_⟩
  · exact h.registered id hid hrun d hd fun hdC => hC (mem_insert_of_mem hdC)
  · obtain ⟨d, hd, hdep, hwake⟩ := h.waits id hid hrun hp
    refine ⟨d, hd, hdep, ?_⟩
    by_cases heq : d = job
    · exact .inr (heq ▸ hjob)
    · exact hwake.imp_left fun hdC hins => hdC ((mem_insert.mp hins).resolve_left heq)

/-- What is stored after a job was taken from the stack and its dependents from its list. -/
def JobsDB.popped (q : JobsDB) (job : ID) (n : Nat) : JobsDB :=
  { jobs := q.jobs.erase job
    runnableJobIDs := deleteKey q.runnableJobIDs job
    dependents := Function.update q.dependents job []
    missingJobIDs := q.missingJobIDs
    numJobs := some n }

/-- The dependents of a job that was executed are about to be woken. -/
theorem Sound.pop {n : Nat} (h : Sound env C [] q) (hcard : q.jobs.card = n + 1) (hjob : job ∈ q.runnableJobIDs) :
    Sound env (insert job C) (q.dependents job) (q.popped job n) := by
  have hstored := h.stored job hjob
  have hne : ∀ id ∈ (q.popped job n).jobs, id ≠ job ∧ id ∈ q.jobs := fun id hid =>
    ⟨ne_of_mem_erase hid, mem_of_mem_erase hid⟩
  have hrun : ∀ id, id ≠ job → id ∉ (q.popped job n).runnableJobIDs → id ∉ q.runnableJobIDs :=
    fun id hid hrun hmem => hrun (mem_deleteKey.mpr ⟨hmem, hid⟩)
  refine ⟨fun k hk => ?_, fun id hid => ?_, fun id hid => ?_, fun id hid hnot d hd hC => ?_,
    fun id hid hnot hp => ?_⟩
  · obtain rfl := Option.some.inj hk
    show n = (q.jobs.erase job).card
    rw [card_erase_of_mem hstored, hcard]
    omega
  · obtain ⟨hid, hid'⟩ := mem_deleteKey.mp hid
    exact mem_erase.mpr ⟨hid', h.stored id hid⟩
  · exact (h.ready id (mem_deleteKey.mp hid).1).trans (subset_insert _ _)
  · have hdjob : d ≠ job := fun heq => hC (heq ▸ mem_insert_self _ _)
    show id ∈ update q.dependents job [] d
    rw [update_of_ne hdjob]
    exact h.registered id (hne id hid).2 (hrun id (hne id hid).1 hnot) d hd fun hdC =>
      hC (mem_insert_of_mem hdC)
  · obtain ⟨d, hd, hdep, hwake⟩ := h.waits id (hne id hid).2 (hrun id (hne id hid).1 hnot)
      List.not_mem_nil
    have hdjob : d ≠ job := by
      rintro rfl
      exact hp hdep
    refine ⟨d, hd, ?_, hwake.imp (fun hdC hins => ?_) fun hdrun => mem_deleteKey.mpr ⟨hdrun, hdjob⟩⟩
    · show id ∈ update q.dependents job [] d
      rw [update_of_ne hdjob]
      exact hdep
    · exact hdC ((mem_insert.mp hins).resolve_left hdjob)

theorem Registered.pop {n : Nat} (h : Registered env q) : Registered env (q.popped job n) := by
  intro id hid hnot d hd hstored
  have hne := ne_of_mem_erase hid
  show id ∈ update q.dependents job [] d
  rw [update_of_ne (ne_of_mem_erase hstored)]
  exact h id (mem_of_mem_erase hid) (fun hmem => hnot (mem_deleteKey.mpr ⟨hmem, hne⟩)) d hd
    (mem_of_mem_erase hstored)

/-- What is stored after a job was put on the stack. -/
def JobsDB.woken (q : JobsDB) (job : ID) : JobsDB :=
  { q with runnableJobIDs := putKey q.runnableJobIDs job }

/-- A dependent without missing dependencies is woken. -/
theorem Sound.wake (h : Sound env C (job :: l) q) (hjob : job ∈ q.jobs) (hdeps : env.deps job ⊆ C) :
    Sound env C l (q.woken job) := by
  have hrun : ∀ {id}, id ∉ (q.woken job).runnableJobIDs → id ≠ job ∧ id ∉ q.runnableJobIDs :=
    fun hnot => not_or.mp fun h => hnot (mem_putKey.mpr h)
  refine ⟨h.count, fun id hid => ?_, fun id hid => ?_, fun id hid hnot => ?_, fun id hid hnot hp => ?_⟩
  · rcases mem_putKey.mp hid with rfl | hid
    · exact hjob
    · exact h.stored id hid
  · rcases mem_putKey.mp hid with rfl | hid
    · exact hdeps
    · exact h.ready id hid
  · exact h.registered id hid (hrun hnot).2
  obtain ⟨d, hd, hdep, hwake⟩ := h.waits id hid (hrun hnot).2 fun hmem =>
    (List.mem_cons.mp hmem).elim (hrun hnot).1 hp
  exact ⟨d, hd, hdep, hwake.imp_right fun h => mem_putKey.mpr (.inr h)⟩

theorem Registered.wake (h : Registered env q) : Registered env (q.woken job) := by
  intro id hid hnot d hd hstored
  exact h id hid (fun hmem => hnot (mem_putKey.mpr (.inr hmem))) d hd hstored

/-- A dependent that misses another dependency waits for that. -/
theorem Sound.skip (h : Sound env C (job :: l) q) (hdeps : ¬env.deps job ⊆ C) : Sound env C l q := by
  refine { h with waits := fun id hid hnot hp => ?_ }
  by_cases heq : id = job
  · subst heq
    obtain ⟨d, hd, hC⟩ := not_subset.mp hdeps
    exact ⟨d, hd, h.registered id hid hnot d hd hC, .inl hC⟩
  · exact h.waits id hid hnot fun hmem => (List.mem_cons.mp hmem).elim heq hp

/-! ## The state in memory -/

/-- The cache holds stored jobs. -/
def Jobs.Cached (j : Jobs) : Prop :=
  j.cachingEnabled = true → j.jobsCache.All fun id job => job = id ∧ id ∈ j.db.jobs

/-- The count is right, and what is cached is stored. -/
structure Jobs.Loaded (j : Jobs) : Prop where
  numJobs : j.numJobs = j.db.jobs.card
  cache : j.Cached

namespace Jobs

variable {j : Jobs}

theorem Cached.hasJob (h : j.Cached) (id : ID) :
    ∃ jobsCache, j.hasJob id = (decide (id ∈ j.db.jobs), { j with jobsCache }) ∧
      Cached { j with jobsCache } := by
  rw [Jobs.hasJob]
  by_cases hcaching : j.cachingEnabled = true
  · rw [if_pos hcaching]
    obtain ⟨hget, hall⟩ := (h hcaching).get id
    cases hcache : j.jobsCache.get id with
    | mk found jobsCache =>
      rw [hcache] at hget hall
      refine ⟨jobsCache, ?_, fun _ => hall⟩
      cases found with
      | none => rfl
      | some job =>
        have hstored : id ∈ j.db.jobs := (hget job rfl).2
        simp [hstored]
  · rw [if_neg hcaching]
    exact ⟨j.jobsCache, rfl, h⟩

theorem Loaded.hasJob (h : j.Loaded) (id : ID) :
    ∃ jobsCache, j.hasJob id = (decide (id ∈ j.db.jobs), { j with jobsCache }) ∧
      Loaded { j with jobsCache } := by
  obtain ⟨jobsCache, heq, hcached⟩ := h.cache.hasJob id
  exact ⟨jobsCache, heq, h.numJobs, hcached⟩

theorem Loaded.getJob (h : j.Loaded) (id : ID) :
    ∃ jobsCache, j.getJob id = (if id ∈ j.db.jobs then some id else none, { j with jobsCache }) ∧
      Loaded { j with jobsCache } := by
  rw [Jobs.getJob]
  by_cases hcaching : j.cachingEnabled = true
  · rw [if_pos hcaching]
    obtain ⟨hget, hall⟩ := (h.cache hcaching).get id
    cases hcache : j.jobsCache.get id with
    | mk found jobsCache =>
      rw [hcache] at hget hall
      cases found with
      | some job =>
        obtain ⟨rfl, hstored⟩ := hget job rfl
        refine ⟨jobsCache, ?_, ⟨h.numJobs, fun _ => hall⟩⟩
        simp [hstored]
      | none =>
        by_cases hstored : id ∈ j.db.jobs
        · refine ⟨jobsCache.put id id, ?_, ⟨h.numJobs, fun _ => ?_⟩⟩
          · simp [hstored]
          · exact LRU.All.put hall ⟨rfl, hstored⟩ fun _ _ _ hP => hP
        refine ⟨jobsCache, ?_, ⟨h.numJobs, fun _ => hall⟩⟩
        simp [hstored]
  · rw [if_neg hcaching]
    exact ⟨j.jobsCache, rfl, h⟩

/-- Everything but the lists of dependents stays. -/
def setDependents (j : Jobs) (dependents : ID → List ID) : Jobs :=
  { j with db := { j.db with dependents } }

/-- The dependents after a job was registered under several dependencies. -/
theorem addDependencies_eq (job : ID) (deps : List ID) (hnodup : deps.Nodup) (j : Jobs) :
    deps.foldl (fun j depID => j.addDependency depID job) j = j.setDependents fun d =>
        if d ∈ deps then putKey (j.db.dependents d) job else j.db.dependents d := by
  induction deps generalizing j with
  | nil => simp [setDependents]
  | cons dep deps ih =>
    obtain ⟨hdep, hnodup⟩ := List.nodup_cons.mp hnodup
    rw [List.foldl_cons, ih hnodup]
    apply congrArg j.setDependents
    funext d
    by_cases heq : d = dep
    · subst heq
      simp [hdep, addDependency]
    · simp [heq, addDependency]

theorem Cached.putJob (h : j.Cached) (job : ID) : (j.putJob job).Cached := by
  intro hcaching
  change j.cachingEnabled = true at hcaching
  show LRU.All (if j.cachingEnabled then j.jobsCache.put job job else j.jobsCache) _
  rw [if_pos hcaching]
  exact LRU.All.put (h hcaching) ⟨rfl, mem_insert_self _ _⟩ fun _ _ _ hP =>
    ⟨hP.1, mem_insert_of_mem hP.2⟩

/-- What is stored after a push of a new job. -/
theorem Loaded.pushNew (h : j.Loaded) (env : Env) (C : Finset ID) (hjob : job ∉ j.db.jobs) :
    (j.pushNew env C job).db = j.db.pushed env C job ∧ (j.pushNew env C job).disk = j.disk ∧
      (j.pushNew env C job).Loaded := by
  have hput : (j.putJob job).Loaded := by
    refine ⟨?_, h.cache.putJob job⟩
    show j.numJobs + 1 = (insert job j.db.jobs).card
    rw [card_insert_of_notMem hjob, h.numJobs]
  rw [Jobs.pushNew]
  by_cases hempty : env.missing C job = ∅
  · rw [if_neg (by simp [hempty])]
    refine ⟨?_, rfl, hput.numJobs, hput.cache⟩
    rw [addRunnableJob, JobsDB.pushed, if_pos hempty]
    simp [putJob, hempty, h.numJobs]
  rw [if_pos (by simpa using hempty), addDependencies_eq job _ (env.order.nodup_list _)]
  refine ⟨?_, rfl, hput.numJobs, hput.cache⟩
  rw [JobsDB.pushed, if_neg hempty]
  simp [setDependents, putJob, h.numJobs, env.order.mem_list]

/-- The result of `Push`: a job is pushed unless it is stored. -/
theorem Loaded.push (h : j.Loaded) (env : Env) (C : Finset ID) (job : ID) :
    (j.push env C job).1 = decide (job ∉ j.db.jobs) ∧
    (j.push env C job).2.db = (if job ∈ j.db.jobs then j.db else j.db.pushed env C job) ∧
    (j.push env C job).2.disk = j.disk ∧ (j.push env C job).2.Loaded := by
  obtain ⟨jobsCache, hhas, hloaded⟩ := h.hasJob job
  rw [Jobs.push, hhas]
  by_cases hjob : job ∈ j.db.jobs
  · rw [decide_eq_true hjob, if_pos hjob, decide_eq_false (not_not_intro hjob)]
    exact ⟨rfl, rfl, rfl, hloaded⟩
  rw [decide_eq_false hjob, if_neg hjob, decide_eq_true hjob]
  obtain ⟨hdb, hdisk, hloaded⟩ := hloaded.pushNew env C hjob
  exact ⟨rfl, hdb, hdisk, hloaded⟩

theorem loaded_new {disk : JobsDB} (h : ∀ n ∈ disk.numJobs, n = disk.jobs.card) :
    (Jobs.new disk).Loaded := by
  refine ⟨?_, fun _ e he => absurd he List.not_mem_nil⟩
  show disk.numJobs.getD disk.jobs.card = disk.jobs.card
  cases hn : disk.numJobs with
  | none => rfl
  | some n => exact h n hn

end Jobs

/-! ## ExecuteAll -/

namespace World

/-- Everything but the stack stays. -/
def setRunnable (w : World) (runnableJobIDs : List ID) : World :=
  let db := { w.queue.db with runnableJobIDs }
  { w with queue := { w.queue with toJobs := { w.queue.toJobs with db } } }

variable {w w₀ : World} {fails : ID → Bool} {execute : ID → JobM Unit} {halted : Nat → Bool}
  {Q : Except JobErr ID → World → Prop}

theorem wp_onJobs {α : Type} {f : Jobs → α × Jobs} {Q : Except JobErr α → World → Prop} :
    (onJobs f).wp Q w ↔ Q (.ok (f w.queue.toJobs).1)
      { w with queue := { w.queue with toJobs := (f w.queue.toJobs).2 } } := Iff.rfl

theorem getJob_wp {e : JobErr}
    (hcaching : w.queue.cachingEnabled = false) (hok : id ∈ w.queue.db.jobs → Q (.ok id) w)
    (herr : id ∉ w.queue.db.jobs → Q (.error e) w) : (getJob id e).wp Q w := by
  have hget : w.queue.toJobs.getJob id =
      (if id ∈ w.queue.db.jobs then some id else none, w.queue.toJobs) := by
    rw [Jobs.getJob, if_neg (by simp [hcaching])]
  rw [getJob, wp_bind, wp_onJobs, hget]
  by_cases h : id ∈ w.queue.db.jobs
  · rw [if_pos h]
    exact hok h
  rw [if_neg h]
  exact herr h

/-- The dependents are woken that miss nothing. -/
theorem wake_wp (hcaching : w.queue.cachingEnabled = false)
    (h : Sound env w.completed l w.queue.db) :
    (wake env l).wp (fun r w' => (∃ runnableJobIDs, w' = w.setRunnable runnableJobIDs) ∧
      (r = .ok () → Sound env w'.completed [] w'.queue.db ∧
        (Registered env w.queue.db → Registered env w'.queue.db))) w := by
  induction l generalizing w with
  | nil =>
    exact ⟨⟨w.queue.db.runnableJobIDs, rfl⟩, fun _ => ⟨h, fun hr => hr⟩⟩
  | cons dependentID l ih =>
    rw [wake, wp_bind]
    refine getJob_wp hcaching (fun hstored => ?_) fun _ => ⟨⟨w.queue.db.runnableJobIDs, rfl⟩, ?_⟩
    · rw [between_ok, wp_read_bind]
      by_cases hdeps : env.deps dependentID ⊆ w.completed
      · rw [if_neg (by simp [missing_eq_empty.mpr hdeps]), wp_bind, wp_onJobs, between_ok]
        refine wp_mono ?_ (ih (w := w.setRunnable (putKey w.queue.db.runnableJobIDs dependentID))
          hcaching (h.wake hstored hdeps))
        rintro r w' ⟨⟨runnableJobIDs, rfl⟩, hok⟩
        exact ⟨⟨runnableJobIDs, rfl⟩, fun hr =>
          ⟨(hok hr).1, fun hreg => (hok hr).2 hreg.wake⟩⟩
      have hcard : (env.missing w.completed dependentID).card ≠ 0 := by
        rw [card_ne_zero, nonempty_iff_ne_empty]
        exact fun hempty => hdeps (missing_eq_empty.mp hempty)
      rw [if_pos (decide_eq_true hcard)]
      exact ih hcaching (h.skip hdeps)
    · intro hr
      cases hr

/-- The state after a job was taken from the queue. -/
def taken (w : World) (job : ID) (n : Nat) : World :=
  let db := { w.queue.db with
    jobs := w.queue.db.jobs.erase job
    runnableJobIDs := deleteKey w.queue.db.runnableJobIDs job
    numJobs := some n }
  { w with queue := { w.queue with toJobs := { w.queue.toJobs with db, numJobs := n } } }

theorem removeRunnableJob_wp
    (hcaching : w.queue.cachingEnabled = false)
    (hnum : w.queue.numJobs = w.queue.db.jobs.card)
    (hstored : ∀ id ∈ w.queue.db.runnableJobIDs, id ∈ w.queue.db.jobs)
    (hempty : w.queue.db.runnableJobIDs = [] → Q (.error .notFound) w)
    (hok : ∀ job n, job ∈ w.queue.db.runnableJobIDs → w.queue.db.jobs.card = n + 1 →
      Q (.ok job) (w.taken job n)) : removeRunnableJob.wp Q w := by
  rw [removeRunnableJob, wp_read_bind]
  cases hhead : w.queue.db.runnableJobIDs with
  | nil => exact hempty hhead
  | cons job rest =>
    have hmem : job ∈ w.queue.db.runnableJobIDs := by
      rw [hhead]
      exact List.mem_cons_self
    obtain ⟨n, hn⟩ : ∃ n, w.queue.db.jobs.card = n + 1 :=
      Nat.exists_eq_succ_of_ne_zero (card_ne_zero_of_mem (hstored job hmem))
    rw [List.head?_cons, wp_bind, wp_onJobs, between_ok, wp_bind]
    refine getJob_wp hcaching (fun _ => ?_) fun hnot => absurd (hstored job hmem) hnot
    rw [between_ok, wp_bind, wp_onJobs, between_ok, wp_bind, wp_onJobs, between_ok, wp_pure, if_neg]
    · have hdec : w.queue.numJobs - 1 = n := by omega
      have := hok job n hmem hn
      rw [taken, ← hdec] at this
      exact this
    · show ¬w.queue.numJobs = 0
      omega

/-- What a restart finds. -/
structure Durable (env : Env) (w : World) : Prop where
  sound : Sound env w.completed [] w.queue.disk
  calls : ∀ c ∈ w.calls, env.deps c.1 ⊆ c.2

/-- The state before an iteration of `ExecuteAll`. -/
structure Running (env : Env) (w : World) : Prop extends Durable env w where
  committed : w.queue.db = w.queue.disk
  numJobs : w.queue.numJobs = w.queue.db.jobs.card
  uncached : w.queue.cachingEnabled = false

/-- What a part of `ExecuteAll` leaves in the database. -/
structure Since (env : Env) (w₀ w : World) : Prop where
  completed : w₀.completed ⊆ w.completed
  missingIDs : w.queue.missingIDs = w₀.queue.missingIDs
  addToMissingIDs : w.queue.addToMissingIDs = w₀.queue.addToMissingIDs
  removeFromMissingIDs : w.queue.removeFromMissingIDs = w₀.queue.removeFromMissingIDs
  missingJobIDs : w.queue.disk.missingJobIDs = w₀.queue.disk.missingJobIDs
  registered : Registered env w₀.queue.disk → Registered env w.queue.disk
  jobs : w.queue.disk.jobs ⊆ w₀.queue.disk.jobs
  done : ∀ id ∈ w₀.queue.disk.jobs, id ∈ w.queue.disk.jobs ∨ id ∈ w.completed
  ready : ∀ id ∈ w.completed,
    id ∈ w₀.completed ∨ id ∈ w₀.queue.disk.jobs ∧ env.deps id ⊆ w.completed

theorem Since.refl (w : World) : Since env w w :=
  ⟨subset_rfl, rfl, rfl, rfl, rfl, fun h => h, subset_rfl, fun _ h => .inl h, fun _ h => .inl h⟩

theorem Since.trans {w1 w2 : World} (h : Since env w w1) (h' : Since env w1 w2) : Since env w w2 where
  completed := h.completed.trans h'.completed
  missingIDs := h'.missingIDs.trans h.missingIDs
  addToMissingIDs := h'.addToMissingIDs.trans h.addToMissingIDs
  removeFromMissingIDs := h'.removeFromMissingIDs.trans h.removeFromMissingIDs
  missingJobIDs := h'.missingJobIDs.trans h.missingJobIDs
  registered hr := h'.registered (h.registered hr)
  jobs := h'.jobs.trans h.jobs
  done id hid := by
    rcases h.done id hid with hid | hdone
    · exact h'.done id hid
    · exact .inr (h'.completed hdone)
  ready id hid := by
    rcases h'.ready id hid with hid | ⟨hjob, hdeps⟩
    · exact (h.ready id hid).imp_right (And.imp_right fun hdeps => hdeps.trans h'.completed)
    · exact .inr ⟨h.jobs hjob, hdeps⟩

/-- Jobs are executed after their dependencies. -/
theorem Since.closed (h : Since env w₀ w) (hclosed : ∀ id ∈ w₀.completed, env.deps id ⊆ w₀.completed) :
    ∀ id ∈ w.completed, env.deps id ⊆ w.completed := by
  intro id hid
  rcases h.ready id hid with hid | ⟨-, hdeps⟩
  · exact (hclosed id hid).trans h.completed
  · exact hdeps

/-- The state between the execution of a job and the commit: it is still in the database. -/
structure Executed (env : Env) (w : World) (job : ID) (w' : World) : Prop where
  durable : Durable env w'
  since : Since env w w'
  disk : w'.queue.disk = w.queue.disk
  uncached : w'.queue.cachingEnabled = false
  numJobs : w'.queue.numJobs = w'.queue.db.jobs.card
  sound : Sound env w'.completed (w'.queue.db.dependents job)
    { w'.queue.db with dependents := Function.update w'.queue.db.dependents job [] }
  db : w'.queue.db = { w.queue.db with
    jobs := w.queue.db.jobs.erase job
    runnableJobIDs := deleteKey w.queue.db.runnableJobIDs job
    numJobs := w'.queue.db.numJobs }
  completed : job ∈ w'.completed
  stored : job ∈ w.queue.db.jobs
  ready : env.deps job ⊆ w'.completed

theorem Running.calls_snoc (h : Running env w) (hjob : job ∈ w.queue.db.runnableJobIDs) :
    ∀ c ∈ w.calls ++ [(job, w.completed)], env.deps c.1 ⊆ c.2 := by
  intro c hc
  rcases List.mem_append.mp hc with hc | hc
  · exact h.calls c hc
  rw [List.mem_singleton.mp hc]
  rw [h.committed] at hjob
  exact h.sound.ready job hjob

/-- `Execute` completes the jobs without missing dependencies, unless it fails. -/
def Completes (env : Env) (fails : ID → Bool) (execute : ID → JobM Unit) (jobs : Finset ID) : Prop :=
  ∀ job ∈ jobs, ∀ w : World, env.deps job ⊆ w.completed →
    (execute job).exec w = (World.execute fails job).exec w

/-- One job is taken from the stack and executed. -/
theorem executeNextOf_wp (h : Running env w)
    (hexecute : Completes env fails execute w.queue.db.jobs)
    (hempty : w.queue.db.runnableJobIDs = [] → Q (.error .notFound) w)
    (herr : ∀ w', Durable env w' → Since env w w' → Q (.error .execute) w')
    (hok : ∀ job w', Executed env w job w' → Q (.ok job) w') : (executeNextOf execute).wp Q w := by
  have hsound : Sound env w.completed [] w.queue.db := h.committed ▸ h.sound
  rw [executeNextOf, wp_bind]
  refine removeRunnableJob_wp h.uncached h.numJobs hsound.stored hempty fun job n hjob hn => ?_
  have hcalls := h.calls_snoc hjob
  have hready := hsound.ready job hjob
  rw [between_ok, wp_bind,
    wp_congr (hexecute job (hsound.stored job hjob) (w.taken job n) hready), World.execute,
    wp_update_bind]
  by_cases hfails : fails job = true
  · rw [if_pos hfails]
    refine herr _ ⟨h.sound, hcalls⟩ ?_
    exact ⟨subset_rfl, rfl, rfl, rfl, rfl, fun h => h, subset_rfl, fun _ h => .inl h,
      fun _ h => .inl h⟩
  rw [if_neg hfails]
  refine hok job _ ⟨⟨?_, hcalls⟩, ?_, rfl, h.uncached, ?_, hsound.pop hn hjob, rfl,
    mem_insert_self _ _, hsound.stored job hjob, hready.trans (subset_insert _ _)⟩
  · have hdisk : job ∈ w.queue.disk.runnableJobIDs := h.committed ▸ hjob
    exact h.sound.executed hdisk
  · refine ⟨subset_insert _ _, rfl, rfl, rfl, rfl, fun h => h, subset_rfl,
      fun _ h => .inl h, fun id hid => ?_⟩
    rcases mem_insert.mp hid with rfl | hid
    · exact .inr ⟨h.committed ▸ hsound.stored id hjob, hready.trans (subset_insert _ _)⟩
    · exact .inl hid
  · show n = (w.queue.db.jobs.erase job).card
    rw [card_erase_of_mem (hsound.stored job hjob), hn]
    omega

/-- The rest of an iteration commits what was done. -/
theorem release_wp {w' : World} (h : Running env w) (hex : Executed env w job w') :
    (release env job).wp (fun r w'' => Durable env w'' ∧ Since env w w'' ∧
      (r = .ok () → Running env w'' ∧ w''.queue.db.jobs = w.queue.db.jobs.erase job)) w' := by
  rw [release, wp_bind, wp_onJobs, between_ok, wp_bind]
  refine wp_mono ?_ (wake_wp hex.uncached hex.sound)
  rintro r w'' ⟨⟨runnableJobIDs, rfl⟩, hwoken⟩
  cases r with
  | error e =>
    refine ⟨{ hex.durable with }, ?_, fun hr => ?_⟩
    · exact { hex.since with }
    · cases hr
  | ok u =>
    obtain ⟨hsound, hregistered⟩ := hwoken rfl
    have hjobs : w'.queue.db.jobs = w.queue.db.jobs.erase job := by rw [hex.db]
    have hdurable : Sound env w'.completed []
        { w'.queue.db with
          dependents := update w'.queue.db.dependents job []
          runnableJobIDs } := hsound
    refine ⟨⟨hdurable, hex.durable.calls⟩, ?_, fun _ =>
      ⟨⟨⟨hdurable, hex.durable.calls⟩, rfl, hex.numJobs, hex.uncached⟩, hjobs⟩⟩
    refine { hex.since with
      missingJobIDs := ?_
      registered := fun hreg => ?_
      jobs := ?_
      done := fun id hid => ?_ }
    · show w'.queue.db.missingJobIDs = w.queue.disk.missingJobIDs
      rw [hex.db, h.committed]
    · refine hregistered ?_
      rw [← h.committed] at hreg
      have hpop : Registered env (w.queue.db.popped job 0) := hreg.pop
      show Registered env { w'.queue.db with
        dependents := update w'.queue.db.dependents job [] }
      rw [hex.db]
      exact hpop
    · show w'.queue.db.jobs ⊆ w.queue.disk.jobs
      rw [hjobs, ← h.committed]
      exact erase_subset _ _
    · show id ∈ w'.queue.db.jobs ∨ id ∈ w'.completed
      rw [hjobs]
      rw [← h.committed] at hid
      by_cases heq : id = job
      · exact .inr (heq ▸ hex.completed)
      · exact .inl (mem_erase.mpr ⟨heq, hid⟩)

/-- The loop of `ExecuteAll`: what it leaves can be opened again, and if it is not halted it
    ends with an empty stack. -/
theorem executeLoop_wp (fuel numExecuted : Nat) (h : Running env w)
    (hexecute : Completes env fails execute w.queue.db.jobs) (hfuel : w.queue.db.jobs.card < fuel) :
    (executeLoop env execute halted fuel numExecuted).wp (fun r w' => Durable env w' ∧
      Since env w w' ∧ ∀ m, r = .ok m → Running env w' ∧
        (halted m = false → w'.queue.db.runnableJobIDs = [])) w := by
  induction fuel generalizing w numExecuted with
  | zero => omega
  | succ fuel ih =>
    rw [executeLoop]
    split
    · rename_i hhalted
      refine ⟨h.toDurable, .refl w, fun m hm => ⟨h, fun hnever => ?_⟩⟩
      cases hm
      rw [hnever] at hhalted
      cases hhalted
    rw [wp_bind, wp_attempt]
    refine executeNextOf_wp h hexecute (fun hempty => ?_) (fun w' hdurable hsince => ?_)
      fun job w' hex => ?_
    · exact ⟨h.toDurable, .refl w, fun m _ => ⟨h, fun _ => hempty⟩⟩
    · refine ⟨hdurable, hsince, fun m hm => ?_⟩
      cases hm
    · rw [between_ok, wp_bind]
      refine wp_mono ?_ (release_wp h hex)
      rintro r w'' ⟨hdurable, hsince, hok⟩
      cases r with
      | error e =>
        refine ⟨hdurable, hsince, fun m hm => ?_⟩
        cases hm
      | ok u =>
        obtain ⟨hrunning, hjobs⟩ := hok rfl
        have hlt : w''.queue.db.jobs.card < fuel := by
          rw [hjobs, card_erase_of_mem hex.stored]
          have := card_pos.mpr ⟨job, hex.stored⟩
          omega
        have hexecute' : Completes env fails execute w''.queue.db.jobs := by
          intro job hjob
          rw [hjobs] at hjob
          exact hexecute job (mem_of_mem_erase hjob)
        rw [between_ok]
        refine wp_mono ?_ (ih (numExecuted + 1) hrunning hexecute' hlt)
        rintro r w3 ⟨hdurable3, hsince3, hok3⟩
        exact ⟨hdurable3, hsince.trans hsince3, hok3⟩

/-- `ExecuteAll` of a queue without uncommitted changes. -/
theorem executeAllOf_wp (halted : Nat → Bool) (hdurable : Durable env w)
    (hcommitted : w.queue.db = w.queue.disk) (hloaded : w.queue.toJobs.Loaded)
    (hexecute : Completes env fails execute w.queue.db.jobs) :
    (executeAllOf env execute halted).wp (fun r w' => Durable env w' ∧ Since env w w' ∧
      ∀ m, r = .ok m → Running env w' ∧
        (halted m = false → w'.queue.db.runnableJobIDs = [])) w := by
  rw [executeAllOf, wp_bind, wp_onJobs, between_ok, wp_read_bind]
  refine wp_mono ?_ (executeLoop_wp _ 0
    ⟨{ hdurable with }, hcommitted, hloaded.numJobs, rfl⟩ hexecute
    (Nat.lt_succ_self _))
  rintro r w' ⟨hdurable', hsince, hok⟩
  exact ⟨hdurable', { hsince with }, hok⟩

theorem executeAll_wp (fails : ID → Bool) (halted : Nat → Bool) (hdurable : Durable env w)
    (hcommitted : w.queue.db = w.queue.disk) (hloaded : w.queue.toJobs.Loaded) :
    (executeAll env fails halted).wp (fun r w' => Durable env w' ∧ Since env w w' ∧
      ∀ m, r = .ok m → Running env w' ∧ (halted m = false → w'.queue.db.runnableJobIDs = [])) w :=
  executeAllOf_wp halted hdurable hcommitted hloaded fun _ _ _ _ => rfl

end World

/-! ## Opening a queue -/

namespace JobsWithMissing

variable {jm : JobsWithMissing}

theorem writeMissing_of_empty (hadd : jm.addToMissingIDs = ∅) (hremove : jm.removeFromMissingIDs = ∅)
    (l : List ID) : jm.writeMissing env l = l := by
  rw [writeMissing, hadd, hremove]
  simp

/-- `Commit` where the missing IDs did not change. -/
theorem commit_of_empty (env : Env) (hadd : jm.addToMissingIDs = ∅)
    (hremove : jm.removeFromMissingIDs = ∅) :
    jm.commit env = { jm with toJobs := jm.toJobs.commit } := by
  rw [commit, writeMissing_of_empty hadd hremove]
  obtain ⟨⟨disk, db, cachingEnabled, jobsCache, numJobs⟩, missingIDs, removeFrom, addTo⟩ := jm
  subst hadd hremove
  rfl

/-- `Commit` of what is committed changes nothing. -/
theorem commit_of_settled (env : Env) (hadd : jm.addToMissingIDs = ∅)
    (hremove : jm.removeFromMissingIDs = ∅) (hdb : jm.db = jm.disk) : jm.commit env = jm := by
  rw [commit_of_empty env hadd hremove]
  obtain ⟨⟨disk, db, cachingEnabled, jobsCache, numJobs⟩, missingIDs, removeFrom, addTo⟩ := jm
  obtain rfl : db = disk := hdb
  rfl

/-- A sound stack needs no cleaning. -/
theorem cleanRunnableStack_of_ready (env : Env) (C : Finset ID) (hloaded : jm.toJobs.Loaded)
    (hstored : ∀ id ∈ jm.db.runnableJobIDs, id ∈ jm.db.jobs)
    (hready : ∀ id ∈ jm.db.runnableJobIDs, env.deps id ⊆ C) :
    ∃ jobsCache, Jobs.Loaded { jm.toJobs with jobsCache } ∧ jm.cleanRunnableStack env C =
        .ok (commit env { jm with toJobs := { jm.toJobs with jobsCache } }) := by
  suffices hclean : ∀ l : List ID, (∀ id ∈ l, id ∈ jm.db.jobs ∧ env.deps id ⊆ C) →
      ∀ jobsCache, Jobs.Loaded { jm.toJobs with jobsCache } →
        ∃ jobsCache', Jobs.Loaded { jm.toJobs with jobsCache := jobsCache' } ∧
          l.foldlM (cleanRunnableJob env C) { jm with toJobs := { jm.toJobs with jobsCache } } =
            .ok { jm with toJobs := { jm.toJobs with jobsCache := jobsCache' } } by
    obtain ⟨jobsCache, hloaded', hfold⟩ := hclean jm.db.runnableJobIDs
      (fun id hid => ⟨hstored id hid, hready id hid⟩) jm.jobsCache hloaded
    refine ⟨jobsCache, hloaded', ?_⟩
    exact congrArg (fun r : Except JobErr JobsWithMissing => r >>= fun jm => pure (jm.commit env)) hfold
  intro l hl
  induction l with
  | nil => exact fun jobsCache h => ⟨jobsCache, h, rfl⟩
  | cons id l ih =>
    intro jobsCache h
    rw [List.forall_mem_cons] at hl
    obtain ⟨jobsCache', hget, h'⟩ := h.getJob id
    obtain ⟨jobsCache'', h'', hfold⟩ := ih hl.2 jobsCache' h'
    refine ⟨jobsCache'', h'', ?_⟩
    have hstep : cleanRunnableJob env C { jm with toJobs := { jm.toJobs with jobsCache } } id =
        .ok { jm with toJobs := { jm.toJobs with jobsCache := jobsCache' } } := by
      rw [cleanRunnableJob, hget]
      simp [hl.1.1, missing_eq_empty.mpr hl.1.2]
    rw [List.foldlM_cons, hstep]
    exact hfold

end JobsWithMissing

end SavannahNode.Queue
