import Strata.Proofs.Store.Parties
import Strata.Proofs.Store.Waiting

/-!
# Threads and their turns

A turn is the step of one thread, while all others stand still, or the beginning of a call, or it
moves no thread at all. What follows for one kind of turn is said once: which thread takes the step,
what it comes to, and which threads there are behind it.
-/

namespace Strata

/-- What takes steps: the call of a client, or a merge. -/
inductive Thread where
  | call (task : Task)
  | merge (job : Job)

/-- The phase of the merge a worker was at. -/
def Worker.phase : Worker Job → Job.Phase
  | .idle => .over
  | .busy job => job.phase
  | .gone => .lost

theorem Worker.phase_workerOf (job : Job) : (Store.workerOf job).phase = job.phase := by
  obtain ⟨members, phase⟩ := job
  cases phase <;> rfl

/-- What is left of a thread: nothing of a merge that is over or broken off. -/
def Thread.remains : Thread → List Thread
  | .call task => [.call task]
  | .merge job => (Store.workerOf job).job?.toList.map .merge

namespace Store

/-- All threads of an index. -/
def threads (s : Store) : List Thread := s.clients.map Thread.call ++ s.pool.jobs.map Thread.merge

/-- The steps of a thread, with the merge that is submitted. -/
inductive Acts (s : Store) : Thread → Store → Thread → List Job → Prop where
  | call {task task' : Task} {s' : Store} {new : List Job} (h : s.Calls task s' task' new) :
      Acts s (.call task) s' (.call task') new
  | merge {job : Job} {phase : Job.Phase} {s' : Store} {new : List Job}
      (h : s.Merges job s' phase new) :
      Acts s (.merge job) s' (.merge { job with phase }) new

/-- How an index takes a turn: a client or a worker takes a step while the other threads stand
still, a client begins a call, or no thread does anything. -/
inductive Takes (s : Store) : Turn → Store → Prop where
  | client {τ : Turn} {i : Nat} {task task' : Task} {s' : Store} {new : List Job}
      {others : List Thread} (hclient : τ.client? = some i) (hworker : τ.worker? = none)
      (htask : s.clients[i]? = some task)
      (hcalls : s.Calls task s' task' new) (hclients : s'.clients = s.clients)
      (hbefore : s.threads.Perm (.call task :: others))
      (hafter : { s' with clients := s'.clients.set i task' }.threads.Perm
        (.call task' :: (new.map Thread.merge ++ others))) :
      Takes s τ { s' with clients := s'.clients.set i task' }
  | work {τ : Turn} {i : Nat} {job : Job} {phase : Job.Phase} {s' : Store} {new : List Job}
      {others : List Thread} (hworker : τ.worker? = some i) (hclient : τ.client? = none)
      (hjob : s.pool.jobOf? i = some job)
      (hmerges : s.Merges job s' phase new) (hworkers : s'.pool.workers = s.pool.workers)
      (hclients : s'.clients = s.clients)
      (hbefore : s.threads.Perm (.merge job :: others))
      (hafter : { s' with pool := s'.pool.setWorker i (workerOf { job with phase }) }.threads.Perm
        (Thread.remains (.merge { job with phase }) ++ (new.map Thread.merge ++ others))) :
      Takes s τ { s' with pool := s'.pool.setWorker i (workerOf { job with phase }) }
  | begin {task : Task} :
      Takes s (.action (.call task)) { s with clients := s.clients ++ [task] }
  | idle {τ : Turn} {files : Directory} {retired : List Component} {pool : Pool Job}
      (hclient : τ.client? = none) (hworker : τ.worker? = none)
      (hjobs : pool.jobs.Perm s.pool.jobs) (hqueue : ∀ i, s.pool.jobOf? i = none ∨
        pool.jobOf? i = s.pool.jobOf? i) :
      Takes s τ { s with files, retired, pool }

variable {s s' t : Store}

/-- A client takes a step: the other threads stand still. -/
theorem takes_client {τ : Turn} {i : Nat} {task task' : Task} {new : List Job}
    (hclient : τ.client? = some i) (hworker : τ.worker? = none)
    (htask : s.clients[i]? = some task)
    (hcalls : s.Calls task s' task' new) :
    s.Takes τ { s' with clients := s'.clients.set i task' } := by
  obtain ⟨hi, hget⟩ := List.getElem?_eq_some_iff.1 htask
  obtain ⟨hclients, hpool⟩ := submitted_calls hcalls
  have hbefore : s.threads.Perm
      (.call task :: ((s.clients.eraseIdx i).map Thread.call ++ s.pool.jobs.map Thread.merge)) := by
    have hperm := ((List.getElem_cons_eraseIdx_perm hi).symm.map Thread.call).append_right
      (s.pool.jobs.map Thread.merge)
    rwa [hget] at hperm
  have hset : ((s.clients.set i task').map Thread.call).Perm
      (.call task' :: (s.clients.eraseIdx i).map Thread.call) :=
    (List.set_perm_cons_eraseIdx hi task').map Thread.call
  refine .client hclient hworker htask hcalls hclients hbefore ?_
  rw [threads, hclients]
  rcases hpool with ⟨rfl, hpool⟩ | ⟨members, rfl, hsubmit⟩
  · rw [hpool]
    exact hset.append_right _
  · have hjobs := (Pool.jobs_submit hsubmit).2.map Thread.merge
    refine (hset.append hjobs).trans ?_
    rw [List.cons_append, List.map_cons]
    exact List.perm_middle.cons _

theorem workers_merges {job : Job} {phase : Job.Phase} {new : List Job}
    (h : s.Merges job s' phase new) : s'.pool.workers = s.pool.workers := by
  obtain ⟨-, hpool⟩ := submitted_merges h
  rcases hpool with ⟨-, hpool⟩ | ⟨members, -, hsubmit⟩
  · rw [hpool]
  · exact (Pool.jobs_submit hsubmit).1

/-- A worker takes a step: the other threads stand still. -/
theorem takes_work {τ : Turn} {i : Nat} {job : Job} {phase : Job.Phase} {new : List Job}
    (hworker : τ.worker? = some i) (hclient : τ.client? = none)
    (hjob : s.pool.jobOf? i = some job)
    (hmerges : s.Merges job s' phase new) :
    s.Takes τ { s' with pool := s'.pool.setWorker i (workerOf { job with phase }) } := by
  obtain ⟨hclients, hpool⟩ := submitted_merges hmerges
  obtain ⟨others, hothers⟩ := Pool.exists_jobs_perm hjob
  have hbefore :
      s.threads.Perm (.merge job :: (others.map Thread.merge ++ s.clients.map Thread.call)) :=
    ((hothers.map Thread.merge).append_left _).trans List.perm_append_comm
  refine .work hworker hclient hjob hmerges (workers_merges hmerges) hclients hbefore ?_
  have hjobs : (s'.pool.setWorker i (workerOf { job with phase })).jobs.Perm
      ((workerOf { job with phase }).job?.toList ++ (new ++ others)) := by
    rcases hpool with ⟨rfl, hpool⟩ | ⟨members, rfl, hsubmit⟩
    · rw [hpool]
      exact Pool.jobs_setWorker hjob hothers _
    · exact Pool.jobs_submit_setWorker hjob hsubmit hothers _
  refine List.perm_append_comm.trans (((hjobs.map Thread.merge).append_right _).trans ?_)
  rw [hclients, List.map_append, List.map_append, List.append_assoc, List.append_assoc]
  exact List.Perm.refl _

/-- The call whose client takes a step in a turn, and what it comes to. -/
def callStep? (s : Store) (τ : Turn) : Option (Task × Task) := do
  let i ← τ.client?
  let task ← s.clients[i]?
  let t ← s.turn τ
  return (task, ← t.clients[i]?)

theorem callStep?_eq_none {τ : Turn} (hclient : τ.client? = none) : s.callStep? τ = none := by
  rw [callStep?, hclient]
  rfl

theorem callStep?_eq {τ : Turn} {i : Nat} {task task' : Task} (hturn : s.turn τ = some t)
    (hclient : τ.client? = some i) (htask : s.clients[i]? = some task)
    (htask' : t.clients[i]? = some task') : s.callStep? τ = some (task, task') := by
  simp [callStep?, hclient, htask, hturn, htask']

/-- The merge whose worker takes a step in a turn, and the phase it comes to. -/
def mergeStep? (s : Store) (τ : Turn) : Option (Job × Job.Phase) := do
  let i ← τ.worker?
  let job ← s.pool.jobOf? i
  let t ← s.turn τ
  let worker ← t.pool.workers[i]?
  return (job, worker.phase)

theorem mergeStep?_eq_none {τ : Turn} (hworker : τ.worker? = none) : s.mergeStep? τ = none := by
  rw [mergeStep?, hworker]
  rfl

theorem mergeStep?_eq {τ : Turn} {i : Nat} {job : Job} {phase : Job.Phase}
    (hturn : s.turn τ =
      some { s' with pool := s'.pool.setWorker i (workerOf { job with phase }) })
    (hworker : τ.worker? = some i) (hjob : s.pool.jobOf? i = some job)
    (hworkers : s'.pool.workers = s.pool.workers) : s.mergeStep? τ = some (job, phase) := by
  have hi := (List.getElem?_eq_some_iff.1 (Pool.jobOf?_eq_some_iff.1 hjob)).1
  simp [mergeStep?, hworker, hjob, hturn, Pool.setWorker, hworkers, hi, Worker.phase_workerOf]

theorem jobOf?_take {p p' : Pool Job} {i : Nat} (h : p.take i = some p') (j : Nat) :
    p.jobOf? j = none ∨ p'.jobOf? j = p.jobOf? j := by
  by_cases hij : i = j
  · refine .inl ?_
    subst hij
    unfold Pool.take at h
    split at h
    · rename_i hidle _
      simp [Pool.jobOf?, hidle]
    · rename_i hidle _
      simp [Pool.jobOf?, hidle]
    · contradiction
  · refine .inr ?_
    unfold Pool.take at h
    split at h
    · obtain rfl := Option.some.inj h
      simp [Pool.jobOf?, Pool.setWorker, List.getElem?_set_ne hij]
    · obtain rfl := Option.some.inj h
      simp [Pool.jobOf?, Pool.setWorker, List.getElem?_set_ne hij]
    · contradiction

/-- A merge that fails was reading or building, and leaves all else as it was. -/
theorem merges_of_failMerge {i : Nat} {f : Failure} (h : s.failMerge i f = some t) :
    ∃ job, s.pool.jobOf? i = some job ∧ job.usesFiles = true ∧
      s.Merges job s (Job.phaseOf f) [] ∧
      t = { s with
        pool := s.pool.setWorker i (workerOf { job with phase := Job.phaseOf f }) } := by
  obtain ⟨⟨members, phase⟩, hjob, huses, rfl⟩ := failMerge_eq_some_iff.1 h
  cases phase with
  | read => exact ⟨_, hjob, huses, .readFails, rfl⟩
  | build serial tuples =>
    have hmerges : s.Merges ⟨members, .build serial tuples⟩ { s with files := s.files }
      (Job.phaseOf f) [] := .buildFails
    exact ⟨_, hjob, huses, hmerges, rfl⟩
  | _ => contradiction

/-- Every turn is taken in one of these ways. -/
theorem takes_of_turn {τ : Turn} (h : s.turn τ = some t) : s.Takes τ t := by
  have hidle : ∀ {files : Directory} {retired : List Component} {τ : Turn}, τ.client? = none →
      τ.worker? = none → s.Takes τ { s with files, retired } := fun hclient hworker =>
    .idle hclient hworker (List.Perm.refl _) fun _ => .inr rfl
  cases τ with
  | action a =>
    cases a with
    | call task =>
      obtain rfl := Option.some.inj h
      exact .begin
    | client i =>
      obtain ⟨task, s', task', htask, hstep, rfl⟩ := client_eq_some_iff.1 h
      obtain ⟨new, hcalls⟩ := calls_of_stepTask hstep
      exact takes_client rfl rfl htask hcalls
    | take i =>
      obtain ⟨pool, htake, rfl⟩ := Option.map_eq_some_iff.1 h
      exact @Takes.idle s _ s.files s.retired pool rfl rfl (Pool.jobs_take htake)
        (jobOf?_take htake)
    | work i =>
      obtain ⟨job, s', job', hjob, hstep, rfl⟩ := work_eq_some_iff.1 h
      obtain ⟨phase, new, rfl, hmerges⟩ := merges_of_stepJob hstep
      exact takes_work rfl rfl hjob hmerges
    | reap serial =>
      simp only [turn, step, reap, bind, Option.bind_eq_some_iff, pure, Option.some.injEq] at h
      obtain ⟨c, -, name, -, rfl⟩ := h
      exact hidle rfl rfl
    | shutdown =>
      obtain rfl := Option.some.inj h
      refine @Takes.idle s _ s.files s.retired s.pool.shutdown rfl rfl ?_ fun i => .inr ?_
      · rw [Pool.jobs_shutdown]
      · rw [Pool.jobOf?, Pool.workers_shutdown]
        rfl
  | files d =>
    obtain rfl := Option.some.inj h
    exact @hidle d s.retired _ rfl rfl
  | failMerge i f =>
    obtain ⟨job, hjob, -, hmerges, rfl⟩ := merges_of_failMerge h
    exact takes_work rfl rfl hjob hmerges
  | failFlush i f =>
    obtain ⟨htask, -, rfl⟩ := failFlush_eq_some_iff.1 h
    have hcalls : s.Calls .flush
        { s with
          files := s.files, nextStamp := s.nextStamp + 1, nextSerial := s.nextSerial + 1 }
        (.returned (.error f)) [] := .flushFails
    exact takes_client rfl rfl htask hcalls

end Store

end Strata
