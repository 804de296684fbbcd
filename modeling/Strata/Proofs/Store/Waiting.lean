import Mathlib.Data.List.Induction
import Mathlib.Data.List.Perm.Basic
import Strata.Proofs.Store.Steps
import Strata.Store.Recovery

/-!
# Waiting for merges

A producer that waits is let go by a notification, and only merges notify: one that finishes does
so with its last step. So a producer waits for something just as long as a merge is unfinished,
and what decides that is the moment at which it noted the generation: it waits for a merge that
was unfinished then, or for one submitted since. Nothing in a policy makes sure that there is one.
-/

namespace Strata

/-- What is counted in a list, behind a change at one place. -/
theorem countP_set_add {α : Type} (p : α → Bool) {l : List α} {i : Nat} {x : α}
    (h : l[i]? = some x) (y : α) :
    (l.set i y).countP p + (p x).toNat = l.countP p + (p y).toNat := by
  obtain ⟨hi, rfl⟩ := List.getElem?_eq_some_iff.1 h
  have hsplit := (List.getElem_cons_eraseIdx_perm hi).countP_eq p
  have hset := (List.set_perm_cons_eraseIdx hi y).countP_eq p
  have hone : ∀ b : Bool, (if b then 1 else 0) = b.toNat := by decide
  rw [List.countP_cons, hone] at hsplit hset
  omega

namespace Pool

variable {α : Type}

/-- Whether a message is a job. -/
def isRun : Message α → Bool
  | .run _ => true
  | .stop => false

/-- Whether a worker is at a job. -/
def isBusy : Worker α → Bool
  | .busy _ => true
  | _ => false

/-- Whether a worker is free. -/
def isIdle : Worker α → Bool
  | .idle => true
  | _ => false

/-- The jobs submitted and not finished, in the queue and at workers. -/
def unfinished (p : Pool α) : Nat := p.queue.countP isRun + p.workers.countP isBusy

theorem submit_eq_ok {p q : Pool α} {job : α} (h : p.submit job = .ok q) :
    q = { p with queue := p.queue ++ [.run job] } := by
  unfold submit at h
  split at h
  · contradiction
  · exact (Except.ok.inj h).symm

theorem jobOf?_eq_some_iff {p : Pool α} {i : Nat} {job : α} :
    p.jobOf? i = some job ↔ p.workers[i]? = some (.busy job) := by
  unfold jobOf?
  split
  · simp_all
  · simp_all

/-- Taking a message moves a job from the queue to a worker. -/
theorem unfinished_take {p q : Pool α} {i : Nat} (h : p.take i = some q) :
    q.unfinished = p.unfinished ∧ q.queue.countP isRun ≤ p.queue.countP isRun := by
  unfold take at h
  split at h
  · rename_i job queue hworker hqueue
    obtain rfl := Option.some.inj h
    obtain ⟨hi, heq⟩ := List.getElem?_eq_some_iff.1 hworker
    simp only [unfinished, setWorker, hqueue, List.countP_set hi, heq, List.countP_cons]
    simp [isBusy, isRun]
    omega
  · rename_i queue hworker hqueue
    obtain rfl := Option.some.inj h
    obtain ⟨hi, heq⟩ := List.getElem?_eq_some_iff.1 hworker
    simp only [unfinished, setWorker, hqueue, List.countP_set hi, heq, List.countP_cons]
    simp [isBusy, isRun]
  · contradiction

theorem countP_queue_shutdown (p : Pool α) :
    p.shutdown.queue.countP isRun = p.queue.countP isRun := by
  unfold shutdown
  split
  · rfl
  · simp [List.countP_append, List.countP_replicate, isRun]

theorem workers_shutdown (p : Pool α) : p.shutdown.workers = p.workers := by
  unfold shutdown
  split <;> rfl

end Pool

namespace Store

/-- What a step of a merge does to the rest of the index that waiting depends on: a merge may be
submitted, and the last step notifies those who wait. -/
theorem stepJob_waiting {s s' : Store} {job job' : Job} (h : s.stepJob job = some (s', job')) :
    s'.clients = s.clients ∧
      (s'.pool = s.pool ∨ ∃ members, s.pool.submit { members } = .ok s'.pool) ∧
      (s'.board.tracker.generation = s.board.tracker.generation ∧ job'.isOver = false ∨
        s'.board.tracker.generation = s.board.tracker.notify.generation) := by
  obtain ⟨phase, new, rfl, hmerges⟩ := merges_of_stepJob h
  obtain ⟨hclients, hpool⟩ := submitted_merges hmerges
  refine ⟨hclients, hpool.imp And.right fun ⟨members, hnew⟩ => ⟨members, hnew.2⟩, ?_⟩
  rw [generation_merges hmerges]
  cases hwakes : job.wakes with
  | true => exact .inr rfl
  | false => exact .inl ⟨rfl, isOver_merges hmerges hwakes⟩

/-- The merges submitted and not finished. -/
def unfinished (s : Store) : Nat := s.pool.unfinished

/-- The merges an action submits. -/
def submissions (s : Store) (a : Action) : Nat :=
  ((s.step a).map fun t => t.pool.queue.countP Pool.isRun - s.pool.queue.countP Pool.isRun).getD 0

/-- The worker that has taken a step. -/
def workerAfter (s : Store) (i : Nat) : Option (Worker Job) :=
  (s.work i).bind fun t => t.pool.workers[i]?

/-- The merges an action finishes: the worker is free again. -/
def landings (s : Store) : Action → Nat
  | .work i => (s.workerAfter i).toList.countP Pool.isIdle
  | _ => 0

/-- The merges an action breaks off: the worker is gone. -/
def losses (s : Store) : Action → Nat
  | .work i => (s.workerAfter i).toList.countP Pool.isGone
  | _ => 0

/-- What a step of a call does to the rest of the index that waiting depends on. -/
theorem stepTask_waiting {s s' : Store} {task task' : Task}
    (h : s.stepTask task = some (s', task')) :
    s'.clients = s.clients ∧
      (s'.pool = s.pool ∨ ∃ members, s.pool.submit { members } = .ok s'.pool) ∧
      (s'.board.tracker.generation = s.board.tracker.generation ∨
        task.wakes = true ∧ s'.board.tracker.generation = s.board.tracker.notify.generation) := by
  obtain ⟨new, hcalls⟩ := calls_of_stepTask h
  obtain ⟨hclients, hpool⟩ := submitted_calls hcalls
  refine ⟨hclients, hpool.imp And.right fun ⟨members, hnew⟩ => ⟨members, hnew.2⟩, ?_⟩
  rw [generation_stepTask h]
  cases task.wakes with
  | true => exact .inr ⟨rfl, rfl⟩
  | false => exact .inl rfl

theorem submissions_eq {s t : Store} {a : Action} (h : s.step a = some t) :
    s.submissions a =
      t.pool.queue.countP Pool.isRun - s.pool.queue.countP Pool.isRun := by
  rw [submissions, h]
  rfl

theorem workers_of_stepJob {s s' : Store} {job job' : Job} (h : s.stepJob job = some (s', job')) :
    s'.pool.workers = s.pool.workers := by
  obtain ⟨-, hpool | ⟨members, hsubmit⟩, -⟩ := stepJob_waiting h
  · rw [hpool]
  · rw [Pool.submit_eq_ok hsubmit]

theorem workerAfter_eq {s s' : Store} {i : Nat} {job job' : Job}
    (hjob : s.pool.jobOf? i = some job) (hstep : s.stepJob job = some (s', job')) :
    s.workerAfter i = some (workerOf job') := by
  have hi := (List.getElem?_eq_some_iff.1 (Pool.jobOf?_eq_some_iff.1 hjob)).1
  simp [workerAfter, work, hjob, hstep, Pool.setWorker, workers_of_stepJob hstep, hi]

/-- A worker that has taken a step is free, gone or still busy. -/
theorem landings_add_losses {s : Store} {i : Nat} {worker : Worker Job}
    (hafter : s.workerAfter i = some worker) :
    s.landings (.work i) + s.losses (.work i) + (Pool.isBusy worker).toNat = 1 := by
  rw [landings, losses, hafter]
  cases worker <;> rfl

theorem landings_eq {s s' : Store} {i : Nat} {job job' : Job}
    (hjob : s.pool.jobOf? i = some job) (hstep : s.stepJob job = some (s', job')) :
    s.landings (.work i) = if job'.isOver then 1 else 0 := by
  rw [landings, workerAfter_eq hjob hstep, workerOf]
  cases job'.isOver
  · cases job'.isLost <;> rfl
  · rfl

/-- What an action does to merges: every one it finishes or breaks off was unfinished, and every
one it submits is. -/
theorem step_unfinished {s t : Store} {a : Action} (h : s.step a = some t) :
    t.unfinished + s.landings a + s.losses a = s.unfinished + s.submissions a := by
  have hsubmissions := submissions_eq h
  cases a with
  | call task =>
    obtain rfl := Option.some.inj h
    simp [hsubmissions, landings, losses, unfinished]
  | client i =>
    obtain ⟨task, s', task', htask, hstep, rfl⟩ := client_eq_some_iff.1 h
    obtain ⟨-, hpool, -⟩ := stepTask_waiting hstep
    rcases hpool with hpool | ⟨members, hsubmit⟩
    · simp [hsubmissions, landings, losses, unfinished, hpool]
    · have hpool := Pool.submit_eq_ok hsubmit
      simp [hsubmissions, landings, losses, unfinished, hpool, Pool.unfinished,
        List.countP_append, Pool.isRun]
      omega
  | take i =>
    obtain ⟨pool, htake, rfl⟩ := Option.map_eq_some_iff.1 h
    obtain ⟨hsame, hqueue⟩ := Pool.unfinished_take htake
    simp only [hsubmissions, landings, losses, unfinished]
    omega
  | work i =>
    obtain ⟨job, s', job', hjob, hstep, rfl⟩ := work_eq_some_iff.1 h
    obtain ⟨-, hpool, -⟩ := stepJob_waiting hstep
    have hworkers := workers_of_stepJob hstep
    have hafter := landings_add_losses (workerAfter_eq hjob hstep)
    have hbusy := countP_set_add Pool.isBusy (Pool.jobOf?_eq_some_iff.1 hjob) (workerOf job')
    rw [Pool.isBusy, Bool.toNat_true] at hbusy
    have hqueue : s'.pool.queue.countP Pool.isRun =
        s.pool.queue.countP Pool.isRun + s.submissions (.work i) := by
      rcases hpool with hpool | ⟨members, hsubmit⟩
      · simp [hsubmissions, Pool.setWorker, hpool]
      · have hpool := Pool.submit_eq_ok hsubmit
        simp [hsubmissions, Pool.setWorker, hpool, List.countP_append, Pool.isRun]
    simp only [unfinished, Pool.unfinished, Pool.setWorker, hworkers, hqueue]
    omega
  | reap serial =>
    simp only [step, reap, bind, Option.bind_eq_some_iff, pure, Option.some.injEq] at h
    obtain ⟨c, -, name, -, rfl⟩ := h
    simp [hsubmissions, landings, losses, unfinished]
  | shutdown =>
    obtain rfl := Option.some.inj h
    simp [hsubmissions, landings, losses, unfinished, Pool.unfinished,
      Pool.countP_queue_shutdown, Pool.workers_shutdown]

/-- The generation moves by at most one, and it moves where a merge is finished. -/
theorem step_generation {s t : Store} {a : Action} (h : s.step a = some t) :
    t.board.tracker.generation = s.board.tracker.generation ∧ s.landings a = 0 ∨
      t.board.tracker.generation = s.board.tracker.notify.generation ∧ s.landings a ≤ 1 := by
  cases a with
  | call task =>
    obtain rfl := Option.some.inj h
    exact .inl ⟨rfl, rfl⟩
  | client i =>
    obtain ⟨task, s', task', htask, hstep, rfl⟩ := client_eq_some_iff.1 h
    obtain ⟨-, -, hgeneration⟩ := stepTask_waiting hstep
    exact hgeneration.imp (fun h => ⟨h, rfl⟩) (fun h => ⟨h.2, Nat.zero_le 1⟩)
  | take i =>
    obtain ⟨pool, htake, rfl⟩ := Option.map_eq_some_iff.1 h
    exact .inl ⟨rfl, rfl⟩
  | work i =>
    obtain ⟨job, s', job', hjob, hstep, rfl⟩ := work_eq_some_iff.1 h
    obtain ⟨-, -, hgeneration⟩ := stepJob_waiting hstep
    have hlandings := landings_eq hjob hstep
    refine hgeneration.imp (fun h => ⟨h.1, ?_⟩) (fun h => ⟨h, ?_⟩)
    · rw [hlandings, h.2]
      rfl
    · rw [hlandings]
      split <;> omega
  | reap serial =>
    simp only [step, reap, bind, Option.bind_eq_some_iff, pure, Option.some.injEq] at h
    obtain ⟨c, -, name, -, rfl⟩ := h
    exact .inl ⟨rfl, rfl⟩
  | shutdown =>
    obtain rfl := Option.some.inj h
    exact .inl ⟨rfl, rfl⟩

/-- What a run does to merges. -/
theorem run_unfinished {s t : Store} {actions : List Action} (h : s.run actions = some t) :
    t.unfinished + s.tally landings actions + s.tally losses actions =
      s.unfinished + s.tally submissions actions := by
  induction actions generalizing s with
  | nil =>
    obtain rfl := Option.some.inj h
    rfl
  | cons a rest ih =>
    obtain ⟨u, hstep, hrest⟩ := Option.bind_eq_some_iff.1 h
    have hfirst := step_unfinished hstep
    have hrest := ih hrest
    simp only [tally, hstep, Option.map_some, Option.getD_some]
    omega

/-- Along a run the generation counts at least the merges that are finished, within a word. -/
theorem run_generation {s t : Store} {actions : List Action} (h : s.run actions = some t) :
    ∃ n ≤ actions.length, s.tally landings actions ≤ n ∧
      t.board.tracker.generation % Numeral.word =
        (s.board.tracker.generation + n) % Numeral.word := by
  induction actions generalizing s with
  | nil =>
    obtain rfl := Option.some.inj h
    exact ⟨0, Nat.le_refl _, Nat.le_refl _, rfl⟩
  | cons a rest ih =>
    obtain ⟨u, hstep, hrest⟩ := Option.bind_eq_some_iff.1 h
    obtain ⟨n, hn, hlandings, hgeneration⟩ := ih hrest
    simp only [tally, hstep, Option.map_some, Option.getD_some, List.length_cons]
    rcases step_generation hstep with ⟨hsame, hnone⟩ | ⟨hnext, hone⟩
    · refine ⟨n, by omega, by omega, ?_⟩
      rw [hgeneration, hsame]
    · refine ⟨n + 1, by omega, by omega, ?_⟩
      rw [hgeneration, hnext]
      simp only [Tracker.notify]
      rw [Nat.mod_add_mod, Nat.add_assoc, Nat.add_comm 1 n]

/-- While the generation stays, no merge is finished. Runs are taken to be too short to bring the
generation back to where it was. -/
theorem unfinished_of_generation_eq {s t : Store} {actions : List Action}
    (h : s.run actions = some t) (hshort : actions.length < Numeral.word)
    (hsame : t.board.tracker.generation = s.board.tracker.generation) :
    t.unfinished + s.tally losses actions = s.unfinished + s.tally submissions actions := by
  obtain ⟨n, hn, hlandings, hgeneration⟩ := run_generation h
  have hmerges := run_unfinished h
  rw [hsame] at hgeneration
  have hzero : n = 0 := by
    simp only [Numeral.word] at hgeneration hshort
    omega
  omega

end Store

/-- The generation noted by a call of the policy that is on its way into the wait, or inside. -/
def Phase.noted? : Phase → Option Nat
  | .look _ observed => some observed
  | .count _ observed _ _ => some observed
  | .drowse observed => some observed
  | .asleep observed => some observed
  | _ => none

/-- The generation noted by a call of the policy, if it is not carrying out an order. -/
def Consultation.noted? : Consultation → Option Nat
  | .thinking call => call.phase.noted?
  | .scheduling .. => none

/-- The generation noted by the call of a client. -/
def Task.noted? : Task → Option Nat
  | .consult k => k.noted?
  | _ => none

/-- Whether the call of a client has just noted a generation: it is about to look. -/
def Task.Looks (task : Task) (observed : Nat) : Prop :=
  ∃ policy full waited, task = .consult (.thinking ⟨policy, full, .look waited observed⟩)

/-- Whether the call of a client is inside the wait of the policy. -/
def Task.Sleeps (task : Task) (observed : Nat) : Prop :=
  ∃ policy full, task = .consult (.thinking ⟨policy, full, .asleep observed⟩)

namespace Call

theorem noted?_stepCount (b : Board) (largest tolerance : Nat) (waited : Bool) (observed : Nat)
    (rest : List Component) (small : Nat) :
    let phase := (stepCount b largest tolerance waited observed rest small).2
    phase.noted? = none ∧ phase ≠ .wake ∨ phase.noted? = some observed := by
  have hafter : ∀ small, let phase := (afterCount b tolerance waited observed small).2
      phase.noted? = none ∧ phase ≠ .wake ∨ phase.noted? = some observed := by
    intro small
    unfold afterCount
    split
    · cases waited <;> exact .inl ⟨rfl, by simp⟩
    · exact .inr rfl
  cases rest with
  | nil => exact hafter small
  | cons c rest =>
    simp only [stepCount]
    split
    · exact hafter small
    · split
      · exact hafter small
      · split
        · exact hafter (small + 1)
        · exact .inr rfl

theorem noted?_choose (policy : Policy) (full : Bool) (listed : List Component) :
    (choose policy full listed).noted? = none ∧ choose policy full listed ≠ .wake := by
  unfold choose
  split
  · exact ⟨rfl, by simp⟩
  · split
    · split <;> exact ⟨rfl, by simp⟩
    · split <;> exact ⟨rfl, by simp⟩
    · exact ⟨rfl, by simp⟩

/-- Behind a step, a call of the policy has noted nothing, or what it had noted before, or the
generation it has just read. It notifies with its first step only. -/
theorem noted?_step {b b' : Board} {c c' : Call} (h : c.step b = some (b', c')) :
    c'.phase.noted? = none ∧ c'.phase ≠ .wake ∨
      (∃ g, c'.phase.noted? = some g ∧ c.phase.noted? = some g) ∨
      ∃ waited, c'.phase = .look waited b'.tracker.generation := by
  obtain ⟨policy, full, phase⟩ := c
  cases phase with
  | wake =>
    obtain ⟨-, rfl⟩ := Prod.mk.inj (Option.some.inj h)
    cases policy <;> exact .inl ⟨rfl, by simp [afterWake]⟩
  | observe waited =>
    obtain ⟨rfl, rfl⟩ := Prod.mk.inj (Option.some.inj h)
    exact .inr (.inr ⟨waited, rfl⟩)
  | look waited observed =>
    obtain ⟨-, rfl⟩ := Prod.mk.inj (Option.some.inj h)
    exact .inr (.inl ⟨observed, rfl, rfl⟩)
  | count waited observed rest small =>
    obtain ⟨-, rfl⟩ := Prod.mk.inj (Option.some.inj h)
    refine (noted?_stepCount b _ _ waited observed rest small).imp id fun h => .inl ?_
    exact ⟨observed, h, rfl⟩
  | drowse observed =>
    simp only [step] at h
    split at h
    · obtain ⟨-, rfl⟩ := Prod.mk.inj (Option.some.inj h)
      exact .inr (.inl ⟨observed, rfl, rfl⟩)
    · obtain ⟨-, rfl⟩ := Prod.mk.inj (Option.some.inj h)
      exact .inl ⟨rfl, by simp⟩
  | asleep observed =>
    simp only [step] at h
    split at h
    · contradiction
    · obtain ⟨-, rfl⟩ := Prod.mk.inj (Option.some.inj h)
      exact .inl ⟨rfl, by simp⟩
  | survey =>
    obtain ⟨-, rfl⟩ := Prod.mk.inj (Option.some.inj h)
    exact .inl ⟨rfl, by simp⟩
  | inspect listed rest =>
    cases rest with
    | nil =>
      obtain ⟨-, rfl⟩ := Prod.mk.inj (Option.some.inj h)
      exact .inl (noted?_choose policy full listed)
    | cons first rest =>
      simp only [step] at h
      split at h
      · obtain ⟨-, rfl⟩ := Prod.mk.inj (Option.some.inj h)
        exact .inl ⟨rfl, by simp⟩
      · obtain ⟨-, rfl⟩ := Prod.mk.inj (Option.some.inj h)
        exact .inl ⟨rfl, by simp⟩
  | ordered order => simp [step] at h
  | finished answer => simp [step] at h

/-- A call for a component that was flushed starts out having noted nothing, and does not notify. -/
theorem noted?_start (policy : Policy) (full : Bool) (added : Component) :
    (start policy full added false).phase.noted? = none ∧
      (start policy full added false).phase ≠ .wake := by
  cases policy with
  | runs largest tolerance =>
    simp only [start, Bool.false_eq_true, if_false]
    split <;> exact ⟨rfl, by simp⟩
  | all limit => exact ⟨rfl, by simp [start]⟩
  | never => exact ⟨rfl, by simp [start]⟩

end Call

namespace Task

/-- Whether the call of a client neither notifies nor is on its way into the wait. -/
def Awake (task : Task) : Prop := task.noted? = none ∧ task.wakes = false

theorem awake_of_begins {task : Task} (h : task.Begins) : task.Awake := by
  cases h <;> exact ⟨rfl, rfl⟩

theorem awake_thinking {call : Call} (h : call.phase.noted? = none ∧ call.phase ≠ .wake) :
    (Task.consult (.thinking call)).Awake := by
  obtain ⟨policy, full, phase⟩ := call
  refine ⟨h.1, ?_⟩
  cases phase <;> first | rfl | exact absurd rfl h.2

theorem wakes_of_noted? {task : Task} {g : Nat} (h : task.noted? = some g) :
    task.wakes = false := by
  cases task with
  | consult k =>
    cases k with
    | thinking call =>
      obtain ⟨policy, full, phase⟩ := call
      cases phase <;> first | rfl | simp [noted?, Consultation.noted?, Phase.noted?] at h
    | scheduling call phase => rfl
  | _ => rfl

theorem noted?_of_looks {task : Task} {g : Nat} (h : task.Looks g) : task.noted? = some g := by
  obtain ⟨policy, full, waited, rfl⟩ := h
  rfl

theorem noted?_of_sleeps {task : Task} {g : Nat} (h : task.Sleeps g) : task.noted? = some g := by
  obtain ⟨policy, full, rfl⟩ := h
  rfl

end Task

namespace Store

/-- Behind a step, a call of a client has noted nothing, or what it had noted before, or the
generation it has just read. -/
theorem noted?_consults {s s' : Store} {k k' : Consultation} {new : List Job}
    (h : s.Consults k s' k' new) :
    (Task.consult k').Awake ∨ (∃ g, k'.noted? = some g ∧ k.noted? = some g) ∨
      (Task.consult k').Looks s'.board.tracker.generation := by
  cases h with
  | think hstep =>
    rename_i call call' board
    rcases Call.noted?_step hstep with hnone | hsame | ⟨waited, hlook⟩
    · exact .inl (Task.awake_thinking hnone)
    · exact .inr (.inl hsame)
    · obtain ⟨policy, full, phase⟩ := call'
      obtain rfl : phase = _ := hlook
      exact .inr (.inr ⟨policy, full, waited, rfl⟩)
  | reply =>
    rename_i call answer
    obtain ⟨metrics, result, hreply⟩ := Call.reply_frame s.board call answer
    rw [hreply]
    exact .inl ⟨rfl, rfl⟩
  | _ => exact .inl ⟨rfl, rfl⟩

theorem noted?_stepTask {s s' : Store} {task task' : Task}
    (h : s.stepTask task = some (s', task')) :
    task'.Awake ∨ (∃ g, task'.noted? = some g ∧ task.noted? = some g) ∨
      task'.Looks s'.board.tracker.generation := by
  obtain ⟨new, hcalls⟩ := calls_of_stepTask h
  cases hcalls with
  | report => exact .inl (Task.awake_thinking (Call.noted?_start ..))
  | newest => exact .inl (Task.awake_thinking (Call.noted?_start ..))
  | consult hstep => exact noted?_consults hstep
  | insert htask => rcases htask with rfl | rfl <;> exact .inl ⟨rfl, rfl⟩
  | requested htask => rcases htask with rfl | rfl <;> exact .inl ⟨rfl, rfl⟩
  | draining htask => rcases htask with rfl | rfl <;> exact .inl ⟨rfl, rfl⟩
  | drowse htask => rcases htask with rfl | rfl <;> exact .inl ⟨rfl, rfl⟩
  | _ => exact .inl ⟨rfl, rfl⟩

/-- Where the call of a client stands behind an action: where it stood before, at its first step,
or behind a step of its own. -/
theorem clients_step {s t : Store} {a : Action} (hproper : a.Proper) (h : s.step a = some t)
    {i : Nat} {task : Task} (htask : t.clients[i]? = some task) :
    s.clients[i]? = some task ∨ task.Begins ∨
      ∃ before s', s.clients[i]? = some before ∧ s.stepTask before = some (s', task) ∧
        t = { s' with clients := s'.clients.set i task } := by
  cases a with
  | call first =>
    obtain rfl := Option.some.inj h
    rcases Nat.lt_or_ge i s.clients.length with hi | hi
    · rw [List.getElem?_append_left hi] at htask
      exact .inl htask
    · rw [List.getElem?_append_right hi] at htask
      obtain ⟨-, rfl⟩ := List.getElem?_eq_some_iff.1 htask
      rw [List.getElem_singleton]
      exact .inr (.inl hproper)
  | client j =>
    obtain ⟨before, s', after, hbefore, hstep, rfl⟩ := client_eq_some_iff.1 h
    have hclients := (stepTask_waiting hstep).1
    by_cases hij : j = i
    · subst hij
      rw [hclients, List.getElem?_set_self', hbefore] at htask
      obtain rfl : after = task := by simpa using htask
      exact .inr (.inr ⟨before, s', hbefore, hstep, rfl⟩)
    · rw [hclients, List.getElem?_set_ne hij] at htask
      exact .inl htask
  | take j =>
    obtain ⟨pool, -, rfl⟩ := Option.map_eq_some_iff.1 h
    exact .inl htask
  | work j =>
    obtain ⟨job, s', job', -, hstep, rfl⟩ := work_eq_some_iff.1 h
    have hclients := (stepJob_waiting hstep).1
    rw [hclients] at htask
    exact .inl htask
  | reap serial =>
    simp only [step, reap, bind, Option.bind_eq_some_iff, pure, Option.some.injEq] at h
    obtain ⟨c, -, name, -, rfl⟩ := h
    exact .inl htask
  | shutdown =>
    obtain rfl := Option.some.inj h
    exact .inl htask

/-- Behind a turn, the flush of a client may also have failed. -/
theorem clients_turn {s t : Store} {τ : Turn} (hproper : τ.Proper) (h : s.turn τ = some t)
    {i : Nat} {task : Task} (htask : t.clients[i]? = some task) :
    s.clients[i]? = some task ∨ task.Begins ∨ (∃ f, task = .returned (.error f)) ∨
      ∃ before s', s.clients[i]? = some before ∧ s.stepTask before = some (s', task) ∧
        t = { s' with clients := s'.clients.set i task } := by
  cases τ with
  | action a => exact (clients_step hproper h htask).imp id (Or.imp id .inr)
  | files d =>
    obtain rfl := Option.some.inj h
    exact .inl htask
  | failMerge j f =>
    obtain ⟨job, -, -, rfl⟩ := failMerge_eq_some_iff.1 h
    exact .inl htask
  | failFlush j f =>
    obtain ⟨hflush, -, rfl⟩ := failFlush_eq_some_iff.1 h
    by_cases hij : j = i
    · subst hij
      rw [List.getElem?_set_self', hflush] at htask
      obtain rfl : .returned (.error f) = task := by simpa using htask
      exact .inr (.inr (.inl ⟨f, rfl⟩))
    · rw [List.getElem?_set_ne hij] at htask
      exact .inl htask

/-- No client is about to notify. -/
def Calm (s : Store) : Prop :=
  ∀ (i : Nat) (task : Task), s.clients[i]? = some task → task.wakes = false

theorem calm_step {s t : Store} {a : Action} (hproper : a.Proper) (h : s.step a = some t)
    (hcalm : s.Calm) : t.Calm := by
  intro i task htask
  rcases clients_step hproper h htask with hsame | hbegins | ⟨before, s', -, hstep, -⟩
  · exact hcalm i task hsame
  · exact (Task.awake_of_begins hbegins).2
  · rcases noted?_stepTask hstep with hawake | ⟨g, hnoted, -⟩ | ⟨policy, full, waited, rfl⟩
    · exact hawake.2
    · exact Task.wakes_of_noted? hnoted
    · rfl

theorem calm_run {s t : Store} {actions : List Action} (hproper : ∀ a ∈ actions, a.Proper)
    (h : s.run actions = some t) (hcalm : s.Calm) : t.Calm := by
  induction actions generalizing s with
  | nil =>
    obtain rfl := Option.some.inj h
    exact hcalm
  | cons a rest ih =>
    obtain ⟨u, hstep, hrest⟩ := Option.bind_eq_some_iff.1 h
    rw [List.forall_mem_cons] at hproper
    exact ih hproper.2 hrest (calm_step hproper.1 hstep hcalm)

/-- A client has just noted the generation, which is still the same. -/
def Notes (s : Store) (i observed : Nat) : Prop :=
  (∃ task, s.clients[i]? = some task ∧ task.Looks observed) ∧
    s.board.tracker.generation = observed

/-- A client waits inside the policy, and has not been notified since it noted the generation. -/
def Waits (s : Store) (i observed : Nat) : Prop :=
  (∃ task, s.clients[i]? = some task ∧ task.Sleeps observed) ∧
    s.board.tracker.generation = observed

/-- Whoever has noted a generation did so at some moment of the course. -/
theorem exists_notes {s t : Store} {turns : List Turn}
    (hclients : s.clients = []) (hproper : ∀ τ ∈ turns, τ.Proper)
    (h : s.course turns = some t) {i g : Nat} {task : Task} (htask : t.clients[i]? = some task)
    (hnoted : task.noted? = some g) :
    ∃ before since noted, turns = before ++ since ∧ s.course before = some noted ∧
      noted.course since = some t ∧ noted.Notes i g := by
  induction turns using List.reverseRecOn generalizing t task with
  | nil =>
    obtain rfl := Option.some.inj h
    simp [hclients] at htask
  | append_singleton turns τ ih =>
    obtain ⟨u, hcourse, hturn⟩ := course_concat_eq_some_iff.1 h
    have hturns : ∀ τ ∈ turns, τ.Proper := fun τ hτ => hproper τ (by simp [hτ])
    have hearlier : (∃ before, u.clients[i]? = some before ∧ before.noted? = some g) →
        ∃ before since noted, turns ++ [τ] = before ++ since ∧ s.course before = some noted ∧
          noted.course since = some t ∧ noted.Notes i g := by
      rintro ⟨before, hbefore, hg⟩
      obtain ⟨first, since, noted, rfl, hfirst, hsince, hnotes⟩ := ih hturns hcourse hbefore hg
      refine ⟨first, since ++ [τ], noted, List.append_assoc .., hfirst, ?_, hnotes⟩
      exact course_concat_eq_some_iff.2 ⟨u, hsince, hturn⟩
    rcases clients_turn (hproper τ (by simp)) hturn htask with
      hsame | hbegins | ⟨f, rfl⟩ | ⟨before, s', hbefore, htaken, hafter⟩
    · exact hearlier ⟨task, hsame, hnoted⟩
    · rw [(Task.awake_of_begins hbegins).1] at hnoted
      contradiction
    · contradiction
    · rcases noted?_stepTask htaken with hawake | ⟨g', hg', hold⟩ | hlooks
      · rw [hawake.1] at hnoted
        contradiction
      · rw [hg'] at hnoted
        obtain rfl := Option.some.inj hnoted
        exact hearlier ⟨before, hbefore, hold⟩
      · rw [Task.noted?_of_looks hlooks] at hnoted
        obtain rfl := Option.some.inj hnoted
        refine ⟨turns ++ [τ], [], t, (List.append_nil _).symm, h, rfl, ⟨task, htask, hlooks⟩, ?_⟩
        rw [hafter]

/-- Where the file system does not fail, whoever has noted a generation did so in the run. -/
theorem exists_notes_of_run {s t : Store} {actions : List Action}
    (hclients : s.clients = []) (hproper : ∀ a ∈ actions, a.Proper)
    (h : s.run actions = some t) {i g : Nat} {task : Task} (htask : t.clients[i]? = some task)
    (hnoted : task.noted? = some g) :
    ∃ before since noted, actions = before ++ since ∧ s.run before = some noted ∧
      noted.run since = some t ∧ noted.Notes i g := by
  obtain ⟨_, _, noted, hsplit, hbefore, hsince, hnotes⟩ :=
    exists_notes hclients (List.forall_mem_map.2 hproper)
      ((course_map_action s actions).trans h) htask hnoted
  obtain ⟨before, since, rfl, rfl, rfl⟩ := List.map_eq_append_iff.1 hsplit
  rw [course_map_action] at hbefore hsince
  exact ⟨before, since, noted, rfl, hbefore, hsince, hnotes⟩

/-- Where no merge is unfinished, none is submitted and no client notifies, an action leaves the
generation, and so those who wait, as they were. -/
theorem waits_step {s t : Store} {a : Action} {i observed : Nat} (hproper : a.Proper)
    (h : s.step a = some t) (hcalm : s.Calm) (hnone : s.unfinished = 0)
    (hquiet : s.submissions a = 0) (hwaits : s.Waits i observed) :
    t.unfinished = 0 ∧ t.Waits i observed := by
  obtain ⟨⟨task, htask, policy, full, rfl⟩, hgeneration⟩ := hwaits
  have hmerges := step_unfinished h
  have hstays : t.board.tracker.generation = s.board.tracker.generation ∧
      t.clients[i]? = s.clients[i]? := by
    cases a with
    | call first =>
      obtain rfl := Option.some.inj h
      have hi := (List.getElem?_eq_some_iff.1 htask).1
      exact ⟨rfl, List.getElem?_append_left hi⟩
    | client j =>
      obtain ⟨before, s', after, hbefore, hstep, rfl⟩ := client_eq_some_iff.1 h
      obtain ⟨hclients, -, hgen⟩ := stepTask_waiting hstep
      have hne : j ≠ i := by
        rintro rfl
        rw [htask] at hbefore
        obtain rfl := Option.some.inj hbefore
        simp [stepTask, stepConsultation, Consultation.answer?, Call.answer?, Call.order?,
          Call.step, Tracker.holds, hgeneration] at hstep
      refine ⟨?_, ?_⟩
      · rcases hgen with hsame | ⟨hwakes, -⟩
        · exact hsame
        · rw [hcalm j before hbefore] at hwakes
          contradiction
      · rw [hclients]
        exact List.getElem?_set_ne hne
    | take j =>
      obtain ⟨pool, -, rfl⟩ := Option.map_eq_some_iff.1 h
      exact ⟨rfl, rfl⟩
    | work j =>
      obtain ⟨job, s', job', hjob, hstep, rfl⟩ := work_eq_some_iff.1 h
      have hbusy := countP_set_add Pool.isBusy (Pool.jobOf?_eq_some_iff.1 hjob) .idle
      simp only [unfinished, Pool.unfinished] at hnone
      simp only [Pool.isBusy, Bool.toNat_true, Bool.toNat_false] at hbusy
      exact absurd hbusy (by omega)
    | reap serial =>
      simp only [step, reap, bind, Option.bind_eq_some_iff, pure, Option.some.injEq] at h
      obtain ⟨c, -, name, -, rfl⟩ := h
      exact ⟨rfl, rfl⟩
    | shutdown =>
      obtain rfl := Option.some.inj h
      exact ⟨rfl, rfl⟩
  refine ⟨by omega, ⟨_, hstays.2.trans htask, policy, full, rfl⟩, hstays.1.trans hgeneration⟩

theorem waits_run {s t : Store} {actions : List Action} {i observed : Nat}
    (hproper : ∀ a ∈ actions, a.Proper) (h : s.run actions = some t) (hcalm : s.Calm)
    (hnone : s.unfinished = 0) (hquiet : s.tally submissions actions = 0)
    (hwaits : s.Waits i observed) : t.Waits i observed := by
  induction actions generalizing s with
  | nil =>
    obtain rfl := Option.some.inj h
    exact hwaits
  | cons a rest ih =>
    obtain ⟨u, hstep, hrest⟩ := Option.bind_eq_some_iff.1 h
    rw [List.forall_mem_cons] at hproper
    simp only [tally, hstep, Option.map_some, Option.getD_some] at hquiet
    obtain ⟨hnone, hwaits⟩ := waits_step hproper.1 hstep hcalm hnone (by omega) hwaits
    exact ih hproper.2 hrest (calm_step hproper.1 hstep hcalm) hnone (by omega) hwaits

theorem clients_ofComponents {options : Options} {policy : Policy} {codec : Codec}
    {files : Directory} {components : List Component} {s : Store}
    (h : ofComponents options policy codec files components = .ok s) : s.clients = [] := by
  simp only [ofComponents, Outcome.bind_eq_ok_iff, pure, Except.pure, Except.ok.injEq] at h
  obtain ⟨stamp, -, serial, -, pool, -, rfl⟩ := h
  rfl

/-- A merge is unfinished just where one that was unfinished when a waiting producer noted the
generation, or was submitted since, has not been broken off. Where none is, only another submission
lets the producer go; where one is, the producer is let go before none is. -/
theorem waits_for_merge_iff {options : Options} {policy : Policy} {codec : Codec}
    {files : Directory} {components : List Component} {s t : Store} {actions : List Action}
    {i observed : Nat} (hopen : ofComponents options policy codec files components = .ok s)
    (hproper : ∀ a ∈ actions, a.Proper) (hshort : actions.length < Numeral.word)
    (hrun : s.run actions = some t) (hwaits : t.Waits i observed) :
    ∃ before since noted, actions = before ++ since ∧ s.run before = some noted ∧
      noted.Notes i observed ∧
      (0 < t.unfinished ↔
        noted.tally losses since < noted.unfinished + noted.tally submissions since) ∧
      (t.unfinished = 0 → ∀ more u, (∀ a ∈ more, a.Proper) → t.run more = some u →
        t.tally submissions more = 0 → u.Waits i observed) ∧
      (0 < t.unfinished → ∀ more u, more.length < Numeral.word → t.run more = some u →
        t.tally losses more = 0 → u.unfinished = 0 → ¬ u.Waits i observed) := by
  have hclients := clients_ofComponents hopen
  have hcalm : s.Calm := by
    intro j task htask
    simp [hclients] at htask
  obtain ⟨⟨task, htask, hsleeps⟩, hgeneration⟩ := hwaits
  obtain ⟨before, since, noted, rfl, hbefore, hsince, hnotes⟩ :=
    exists_notes_of_run hclients hproper hrun htask (Task.noted?_of_sleeps hsleeps)
  refine ⟨before, since, noted, rfl, hbefore, hnotes, ?_, ?_, ?_⟩
  · have hheld := unfinished_of_generation_eq hsince
      (by simp only [List.length_append] at hshort; omega) (hgeneration.trans hnotes.2.symm)
    omega
  · intro hnone more u hmore hu hquiet
    exact waits_run hmore hu (calm_run hproper hrun hcalm) hnone hquiet
      ⟨⟨task, htask, hsleeps⟩, hgeneration⟩
  · intro hsome more u hmore hu hlosses hnone hstill
    have hheld := unfinished_of_generation_eq hu hmore (hstill.2.trans hgeneration.symm)
    omega

/-- On an index opened on two small components, one of which is tolerated, a client that asks for a
merge of all of them waits, and for nobody. -/
theorem waits_for_nobody :
    let small (stamp : Nat) : Component :=
      { serial := stamp, range := .single stamp, size := 80 }
    ∃ s t, ofComponents {} (.runs 100 1) (.plain [.varying]) {} [small 1, small 0] = .ok s ∧
      s.run (.call .request :: List.replicate 8 (.client 0)) = some t ∧ t.Waits 0 0 ∧
      t.unfinished = 0 ∧
      ∀ more u, (∀ a ∈ more, a.Proper) → t.run more = some u →
        t.tally submissions more = 0 → u.Waits 0 0 := by
  intro small
  obtain ⟨s, t, hopen, hrun, hwaits, hnone⟩ : ∃ s t,
      ofComponents {} (.runs 100 1) (.plain [.varying]) {} [small 1, small 0] = .ok s ∧
      s.run (.call .request :: List.replicate 8 (.client 0)) = some t ∧ t.Waits 0 0 ∧
      t.unfinished = 0 :=
    ⟨_, _, rfl, rfl, ⟨⟨_, rfl, _, _, rfl⟩, rfl⟩, rfl⟩
  have hproper : ∀ a ∈ Action.call .request :: List.replicate 8 (Action.client 0), a.Proper := by
    intro a ha
    rcases List.mem_cons.1 ha with rfl | ha
    · exact .request
    · rw [List.eq_of_mem_replicate ha]
      trivial
  obtain ⟨before, since, noted, -, -, -, -, hforever, -⟩ :=
    waits_for_merge_iff hopen hproper (by decide) hrun hwaits
  exact ⟨s, t, hopen, hrun, hwaits, hnone, hforever hnone⟩

end Store

end Strata
