import Strata.Proofs.Store.Flight
import Strata.Proofs.Store.Notifications

/-!
# Waiting for all merges

The count of merges in flight is raised before a merge is submitted, and lowered after its last call
of the policy, in which it may have submitted another. So where no worker breaks a merge off, the
count is that of the merges submitted or about to be and not yet through, and at zero the pool holds
no merge that could go on to submit another. The notification comes behind the count, so a client
that finds the count raised is notified after it has dropped to zero.
-/

namespace Strata

/-- Whether a merge has still to be counted off. -/
def Job.isOpen (job : Job) : Bool :=
  match job.phase with
  | .signal => false
  | .over => false
  | .lost => false
  | _ => true

/-- Whether a thread is a merge that has still to be counted off. -/
def Thread.isOpen : Thread → Bool
  | .call _ => false
  | .merge job => job.isOpen

/-- Whether a scheduling has counted a merge and not yet submitted it. -/
def Scheduling.isSubmitting : Scheduling → Bool
  | .submit .. => true
  | _ => false

/-- Whether a thread has counted a merge and not yet submitted it. -/
def Thread.isSubmitting (thread : Thread) : Bool :=
  thread.scheduling?.any Scheduling.isSubmitting

/-- Whether a client is at a call of the policy. -/
def Task.invokes : Task → Bool
  | .consult _ => true
  | _ => false

/-- Whether a client waits for all merges. -/
def Task.drains : Task → Bool
  | .drain => true
  | .draining _ => true
  | .drowse _ => true
  | .asleep _ => true
  | _ => false

/-- A thread that is not over, and whose merge has not been refused. -/
structure Thread.Granted (thread : Thread) : Prop where
  remains : thread ∈ thread.remains
  granted : ∀ all members e, thread.scheduling? ≠ some (.withdraw all members e)

theorem Thread.granted_of_none {thread : Thread} (hremains : thread ∈ thread.remains)
    (h : thread.scheduling? = none) : thread.Granted := by
  refine ⟨hremains, fun all members e => ?_⟩
  rw [h]
  simp

theorem Consultation.flight_eq {k : Consultation}
    (h : ∀ all members e, k.scheduling? ≠ some (.withdraw all members e)) :
    k.flight = (k.scheduling?.any Scheduling.isSubmitting).toNat := by
  cases k with
  | thinking call => rfl
  | scheduling call phase =>
    cases phase with
    | withdraw all members e => exact absurd rfl (h all members e)
    | _ => rfl

/-- The merges a thread accounts for: the one it is, and the one it is about to submit. -/
theorem Thread.Granted.flight_eq {thread : Thread} (h : thread.Granted) :
    thread.flight = thread.isOpen.toNat + thread.isSubmitting.toNat := by
  obtain ⟨-, hgranted⟩ := h
  cases thread with
  | call task =>
    cases task with
    | consult k => exact (Consultation.flight_eq hgranted).trans (Nat.zero_add _).symm
    | _ => rfl
  | merge job =>
    obtain ⟨members, phase⟩ := job
    cases phase with
    | consult k => exact congrArg (1 + ·) (Consultation.flight_eq hgranted)
    | _ => rfl

/-- A merge that is counted off and not over has only to notify. -/
theorem Thread.Granted.phase_eq {job : Job} (h : Thread.Granted (.merge job))
    (hclosed : job.isOpen = false) : job.phase = .signal := by
  obtain ⟨hremains, -⟩ := h
  obtain ⟨members, phase⟩ := job
  cases phase with
  | signal => rfl
  | «over» => exact absurd hremains List.not_mem_nil
  | lost => exact absurd hremains List.not_mem_nil
  | _ => contradiction

namespace Store

variable {s s' t : Store} {new : List Job} {thread thread' : Thread}

/-- How often a turn is a step of a client's call of the policy. -/
def invocations (s : Store) : Turn → Nat
  | .action (.client i) => s.clients[i]?.toList.countP Task.invokes
  | _ => 0

theorem granted_schedules {phase phase' : Scheduling} (h : s.Schedules phase s' phase' new)
    (hstaffed : s.pool.Staffed) : ∀ all members e, phase' ≠ .withdraw all members e := by
  have hconclude : ∀ (all : Bool) (answer : Except Error Bool) (all' members e),
      Scheduling.conclude all answer ≠ .withdraw all' members e := by
    intro all answer all' members e
    unfold Scheduling.conclude
    split <;> simp
  cases h with
  | claimNone => exact hconclude _ _
  | gaveUp => exact hconclude _ _
  | giveUpLost => exact hconclude _ _
  | submit => exact hconclude _ _
  | refuse hpool => exact absurd hpool (Pool.submit_ne_error hstaffed _ _)
  | handedBack => exact hconclude _ _
  | handBackLost => exact hconclude _ _
  | _ => simp

theorem granted_consults {k k' : Consultation} (h : s.Consults k s' k' new)
    (hstaffed : s.pool.Staffed) :
    ∀ all members e, k'.scheduling? ≠ some (.withdraw all members e) := by
  intro all members e
  cases h with
  | think => simp [Consultation.scheduling?]
  | order horder =>
    rename_i call order
    cases order <;> simp [Consultation.scheduling?, Scheduling.ofOrder]
  | schedule hphase hstep =>
    intro heq
    exact granted_schedules hstep hstaffed all members e (Option.some.inj heq)
  | reply => simp [Consultation.scheduling?]

/-- A pool with all its workers refuses no merge. -/
theorem granted_acts (h : s.Acts thread s' thread' new) (hstaffed : s.pool.Staffed) :
    (∀ left ∈ thread'.remains, left.Granted) ∧ ∀ job ∈ new, Thread.Granted (.merge job) := by
  have hnew : ∀ job ∈ new, Thread.Granted (.merge job) := by
    intro job hjob
    rcases orders_acts h with rfl | ⟨all, members, -, rfl, -⟩
    · contradiction
    · rw [List.mem_singleton.1 hjob]
      exact Thread.granted_of_none (List.mem_singleton_self _) rfl
  refine ⟨fun left hleft => ?_, hnew⟩
  obtain rfl := mem_remains hleft
  have hnone := Thread.granted_of_none hleft
  cases h with
  | call hcalls =>
    cases hcalls with
    | insert htask => rcases htask with rfl | rfl <;> exact hnone rfl
    | requested htask => rcases htask with rfl | rfl <;> exact hnone rfl
    | consult hstep => exact ⟨hleft, granted_consults hstep hstaffed⟩
    | draining htask => rcases htask with rfl | rfl <;> exact hnone rfl
    | drowse htask => rcases htask with rfl | rfl <;> exact hnone rfl
    | _ => exact hnone rfl
  | merge hmerges =>
    cases hmerges with
    | readFails =>
      rename_i members f
      cases f <;> exact hnone rfl
    | buildFails =>
      rename_i members serial tuples files f
      cases f <;> exact hnone rfl
    | consult hstep => exact ⟨hleft, granted_consults hstep hstaffed⟩
    | _ => exact hnone rfl

/-- What a turn puts into the queue is a merge about to read. -/
theorem queue_turn {τ : Turn} (hgo : τ ≠ .action .shutdown) (hturn : s.turn τ = some t) :
    ∀ m ∈ t.pool.queue, m ∈ s.pool.queue ∨ ∃ members, m = .run { members } := by
  have hsubmitted : ∀ {pool : Pool Job}, (pool = s.pool ∨ ∃ members : List Component,
      s.pool.submit { members } = .ok pool) →
      ∀ m ∈ pool.queue, m ∈ s.pool.queue ∨ ∃ members, m = .run { members } := by
    rintro pool (rfl | ⟨members, hsubmit⟩) m hm
    · exact .inl hm
    · rw [Pool.submit_eq_ok hsubmit] at hm
      rcases List.mem_append.1 hm with hm | hm
      · exact .inl hm
      · exact .inr ⟨members, List.mem_singleton.1 hm⟩
  cases τ with
  | action a =>
    cases a with
    | call task =>
      obtain rfl := Option.some.inj hturn
      exact fun m hm => .inl hm
    | client i =>
      obtain ⟨task, s', task', -, htaken, rfl⟩ := client_eq_some_iff.1 hturn
      exact hsubmitted (stepTask_waiting htaken).2.1
    | take i =>
      obtain ⟨pool, htake, rfl⟩ := Option.map_eq_some_iff.1 hturn
      intro m hm
      unfold Pool.take at htake
      split at htake
      · rename_i job queue hworker hqueue
        obtain rfl := Option.some.inj htake
        exact .inl (hqueue ▸ List.mem_cons_of_mem _ hm)
      · rename_i queue hworker hqueue
        obtain rfl := Option.some.inj htake
        exact .inl (hqueue ▸ List.mem_cons_of_mem _ hm)
      · contradiction
    | work i =>
      obtain ⟨job, s', job', -, htaken, rfl⟩ := work_eq_some_iff.1 hturn
      have hpool := hsubmitted (stepJob_waiting htaken).2.1
      exact hpool
    | reap serial =>
      simp only [turn, step, reap, bind, Option.bind_eq_some_iff, pure, Option.some.injEq] at hturn
      obtain ⟨c, -, name, -, rfl⟩ := hturn
      exact fun m hm => .inl hm
    | shutdown => exact absurd rfl hgo
  | files d =>
    obtain rfl := Option.some.inj hturn
    exact fun m hm => .inl hm
  | failMerge i f =>
    obtain ⟨job, -, -, rfl⟩ := failMerge_eq_some_iff.1 hturn
    exact fun m hm => .inl hm
  | failFlush i f =>
    obtain ⟨-, -, rfl⟩ := failFlush_eq_some_iff.1 hturn
    exact fun m hm => .inl hm

/-- An index that nobody shuts down, and of whose merges none has been broken off. -/
structure Flows (s : Store) : Prop where
  staffed : s.pool.Staffed
  queued : ∀ m ∈ s.pool.queue, ∃ members, m = .run { members }
  granted : ∀ thread ∈ s.threads, thread.Granted
  exact : s.flight = s.inFlight

theorem Flows.turn (h : s.Flows) {τ : Turn} (hproper : τ.Proper) (hgo : τ ≠ .action .shutdown)
    (hkept : s.breaks τ = []) (hturn : s.turn τ = some t) : t.Flows := by
  refine ⟨?_, fun m hm => ?_, ?_, ?_⟩
  · exact staffed_turn h.staffed hgo (ne_lost_of_breaks hkept) hturn
  · exact (queue_turn hgo hturn m hm).elim (h.queued m) id
  · refine forall_threads_turn (fun hacts _ => granted_acts hacts h.staffed) (fun task htask => ?_)
      hproper hturn h.granted
    refine Thread.granted_of_none (List.mem_singleton_self _) ?_
    cases htask <;> rfl
  · have hflight := flight_turn (Nat.le_of_eq h.exact) hproper hturn
    have hexact := h.exact
    rw [hkept, List.length_nil] at hflight
    omega

theorem Flows.course (h : s.Flows) {turns : List Turn} (hproper : ∀ τ ∈ turns, τ.Proper)
    (hgo : .action .shutdown ∉ turns) (hkept : s.trail breaks turns = [])
    (hcourse : s.course turns = some t) : t.Flows := by
  induction turns generalizing s with
  | nil =>
    obtain rfl := Option.some.inj hcourse
    exact h
  | cons τ rest ih =>
    obtain ⟨u, hturn, hrest⟩ := Option.bind_eq_some_iff.1 hcourse
    rw [List.forall_mem_cons] at hproper
    rw [List.mem_cons, not_or] at hgo
    rw [trail_cons breaks hturn, List.append_eq_nil_iff] at hkept
    exact ih (h.turn hproper.1 (Ne.symm hgo.1) hkept.1 hturn) hproper.2 hgo.2 hkept.2 hrest

theorem sum_flight {threads : List Thread} (h : ∀ thread ∈ threads, thread.Granted) :
    (threads.map Thread.flight).sum =
      threads.countP Thread.isOpen + threads.countP Thread.isSubmitting := by
  have hone : ∀ b : Bool, (if b then 1 else 0) = b.toNat := by decide
  induction threads with
  | nil => rfl
  | cons thread rest ih =>
    rw [List.forall_mem_cons] at h
    rw [List.map_cons, List.sum_cons, List.countP_cons, List.countP_cons, hone, hone, ih h.2,
      h.1.flight_eq]
    omega

theorem countP_isOpen (s : Store) :
    s.threads.countP Thread.isOpen = s.pool.jobs.countP Job.isOpen := by
  have hcalls : (s.clients.map Thread.call).countP Thread.isOpen = 0 := by
    simp [List.countP_map, List.countP_eq_zero, Thread.isOpen]
  rw [threads, List.countP_append, hcalls, Nat.zero_add, List.countP_map]
  rfl

/-- The merges in flight are those submitted and not counted off, and those about to be submitted.
-/
theorem Flows.inFlight_eq (h : s.Flows) :
    s.inFlight = s.pool.jobs.countP Job.isOpen + s.threads.countP Thread.isSubmitting := by
  rw [← h.exact, flight, sum_flight h.granted, countP_isOpen]

/-- No merge is queued or about to be submitted, and all that merges have left to do is to notify.
-/
structure Drained (s : Store) : Prop where
  queue : s.pool.queue = []
  jobs : ∀ job ∈ s.pool.jobs, job.phase = .signal
  submitting : ∀ thread ∈ s.threads, thread.isSubmitting = false

theorem Flows.drained (h : s.Flows) (hzero : s.inFlight = 0) : s.Drained := by
  have hcount := h.inFlight_eq
  rw [hzero] at hcount
  have hopen := List.countP_eq_zero.1 (Nat.add_eq_zero_iff.1 hcount.symm).1
  have hsubmitting := List.countP_eq_zero.1 (Nat.add_eq_zero_iff.1 hcount.symm).2
  have hjobs : ∀ job ∈ s.pool.jobs, job.phase = .signal := by
    intro job hjob
    have hgranted := h.granted (.merge job)
      (List.mem_append_right _ (List.mem_map_of_mem hjob))
    exact hgranted.phase_eq (eq_false_of_ne_true (hopen job hjob))
  refine ⟨?_, hjobs, fun thread hthread => eq_false_of_ne_true (hsubmitting thread hthread)⟩
  apply List.eq_nil_iff_forall_not_mem.2
  intro m hm
  obtain ⟨members, rfl⟩ := h.queued m hm
  have hqueued : { members } ∈ s.pool.jobs :=
    List.mem_append_left _ (List.mem_filterMap.2 ⟨_, hm, rfl⟩)
  exact nomatch hjobs _ hqueued

/-- At zero the count of merges in flight is raised in calls of the policy only that clients make.
-/
theorem Flows.inFlight_turn (h : s.Flows) (hzero : s.inFlight = 0) {τ : Turn}
    (hnone : s.invocations τ = 0) (hturn : s.turn τ = some t) : t.inFlight = 0 := by
  cases τ with
  | action a =>
    cases a with
    | call task =>
      obtain rfl := Option.some.inj hturn
      exact hzero
    | client i =>
      obtain ⟨task, s', task', htask, htaken, rfl⟩ := client_eq_some_iff.1 hturn
      rw [invocations, htask] at hnone
      obtain ⟨new, hcalls⟩ := calls_of_stepTask htaken
      show s'.inFlight = 0
      cases hcalls with
      | consult => contradiction
      | _ => exact hzero
    | take i =>
      obtain ⟨pool, -, rfl⟩ := Option.map_eq_some_iff.1 hturn
      exact hzero
    | work i =>
      obtain ⟨⟨members, phase⟩, s', job', hjob, htaken, rfl⟩ := work_eq_some_iff.1 hturn
      obtain ⟨others, hothers⟩ := Pool.exists_jobs_perm hjob
      obtain rfl : phase = .signal :=
        (h.drained hzero).jobs _ (hothers.mem_iff.2 List.mem_cons_self)
      obtain ⟨rfl, -⟩ := Prod.mk.inj (Option.some.inj htaken)
      exact hzero
    | reap serial =>
      simp only [Store.turn, step, reap, bind, Option.bind_eq_some_iff, pure, Option.some.injEq]
        at hturn
      obtain ⟨c, -, name, -, rfl⟩ := hturn
      exact hzero
    | shutdown =>
      obtain rfl := Option.some.inj hturn
      exact hzero
  | files d =>
    obtain rfl := Option.some.inj hturn
    exact hzero
  | failMerge i f =>
    obtain ⟨job, -, -, rfl⟩ := failMerge_eq_some_iff.1 hturn
    exact hzero
  | failFlush i f =>
    obtain ⟨-, -, rfl⟩ := failFlush_eq_some_iff.1 hturn
    exact hzero

theorem Flows.inFlight_course (h : s.Flows) (hzero : s.inFlight = 0) {turns : List Turn}
    (hproper : ∀ τ ∈ turns, τ.Proper) (hgo : .action .shutdown ∉ turns)
    (hkept : s.trail breaks turns = []) (hcourse : s.course turns = some t)
    (hnone : s.sum invocations turns = 0) : t.inFlight = 0 := by
  induction turns generalizing s with
  | nil =>
    obtain rfl := Option.some.inj hcourse
    exact hzero
  | cons τ rest ih =>
    obtain ⟨u, hturn, hrest⟩ := Option.bind_eq_some_iff.1 hcourse
    rw [List.forall_mem_cons] at hproper
    rw [List.mem_cons, not_or] at hgo
    rw [trail_cons breaks hturn, List.append_eq_nil_iff] at hkept
    rw [sum_cons invocations hturn, Nat.add_eq_zero_iff] at hnone
    exact ih (h.turn hproper.1 (Ne.symm hgo.1) hkept.1 hturn)
      (h.inFlight_turn hzero hnone.1 hturn) hproper.2 hgo.2 hkept.2 hrest hnone.2

/-- A client that waits for merges returns where none is in flight. -/
theorem inFlight_of_returned {i : Nat} {task : Task} {answer : Outcome Unit}
    (htask : s.clients[i]? = some task) (hdrains : task.drains = true)
    (hstep : s.step (.client i) = some t) (hreturned : t.clients[i]? = some (.returned answer)) :
    s.inFlight = 0 := by
  obtain ⟨before, s', task', hbefore, htaken, rfl⟩ := client_eq_some_iff.1 hstep
  obtain rfl := Option.some.inj (htask.symm.trans hbefore)
  have hi := (List.getElem?_eq_some_iff.1 htask).1
  rw [(stepTask_waiting htaken).1, List.getElem?_set_self hi] at hreturned
  obtain rfl := Option.some.inj hreturned
  obtain ⟨new, hcalls⟩ := calls_of_stepTask htaken
  cases hcalls with
  | draining =>
    simp only [stepTask, Option.some.injEq, Prod.mk.injEq] at htaken
    by_contra hflight
    rw [if_neg hflight] at htaken
    cases htaken.2
  | drowse htask' => rcases htask' with h | h <;> contradiction
  | _ => contradiction

/-- Merges are in flight, or have still to notify. -/
def Lively (s : Store) : Prop := 0 < s.inFlight ∨ s.pool.jobs ≠ []

/-- The count is lowered by a merge that lands, and by a scheduling whose merge is refused. -/
theorem inFlight_le_consults {k k' : Consultation} (h : s.Consults k s' k' new)
    (hgranted : ∀ all members e, k.scheduling? ≠ some (.withdraw all members e)) :
    s.inFlight ≤ s'.inFlight := by
  cases h with
  | schedule hphase hstep =>
    cases hstep with
    | withdraw => exact absurd rfl (hgranted _ _ _)
    | enlist => exact Nat.le_succ _
    | _ => exact Nat.le_refl _
  | _ => exact Nat.le_refl _

theorem jobs_ne_nil_of_waiting {pool : Pool Job} (h : s.pool.jobs ≠ [])
    (hpool : pool = s.pool ∨ ∃ members : List Component, s.pool.submit { members } = .ok pool) :
    pool.jobs ≠ [] := by
  rcases hpool with rfl | ⟨members, hsubmit⟩
  · exact h
  · intro hnil
    have hperm := (Pool.jobs_submit hsubmit).2
    rw [hnil] at hperm
    exact List.cons_ne_nil _ _ hperm.symm.eq_nil

/-- A merge is over once it has notified. -/
theorem signal_of_over {job : Job} {phase : Job.Phase} (h : s.Merges job s' phase new)
    (hover : phase = .over) : job.phase = .signal := by
  cases h with
  | signal => rfl
  | readFails =>
    rename_i members f
    cases f <;> contradiction
  | buildFails =>
    rename_i members serial tuples files f
    cases f <;> contradiction
  | _ => contradiction

theorem jobs_setWorker_ne_nil {pool : Pool Job} {i : Nat} {job after : Job}
    (hjob : pool.jobOf? i = some job) (hstays : (workerOf after).job? = some after) :
    (pool.setWorker i (workerOf after)).jobs ≠ [] := by
  intro hnil
  obtain ⟨others, hothers⟩ := Pool.exists_jobs_perm ((jobOf?_setWorker_self hjob _).trans hstays)
  rw [hnil] at hothers
  exact List.cons_ne_nil _ _ hothers.symm.eq_nil

/-- While merges are in flight, or have still to notify, they go on to until there has been a
notification. -/
theorem Lively.turn (h : s.Lively) (hflows : s.Flows) {τ : Turn} (hgo : τ ≠ .action .shutdown)
    (hkept : s.breaks τ = []) (hquiet : s.notifications τ = 0) (hturn : s.turn τ = some t) :
    t.Lively := by
  have hpresent := ne_lost_of_breaks hkept
  cases τ with
  | action a =>
    cases a with
    | call task =>
      obtain rfl := Option.some.inj hturn
      exact h
    | client i =>
      obtain ⟨task, s', task', htask, htaken, rfl⟩ := client_eq_some_iff.1 hturn
      refine h.imp (fun hflight => Nat.lt_of_lt_of_le hflight ?_) fun hjobs => ?_
      · obtain ⟨new, hcalls⟩ := calls_of_stepTask htaken
        show s.inFlight ≤ s'.inFlight
        cases hcalls with
        | consult hconsults =>
          have hmem := List.mem_of_getElem? htask
          exact inFlight_le_consults hconsults
            (hflows.granted _ (List.mem_append_left _ (List.mem_map_of_mem hmem))).granted
        | _ => exact Nat.le_refl _
      · exact jobs_ne_nil_of_waiting hjobs (stepTask_waiting htaken).2.1
    | take i =>
      obtain ⟨pool, htake, rfl⟩ := Option.map_eq_some_iff.1 hturn
      refine h.imp id fun hjobs hnil => hjobs ?_
      have hperm := Pool.jobs_take htake
      rw [hnil] at hperm
      exact hperm.symm.eq_nil
    | work i =>
      obtain ⟨job, s', job', hjob, htaken, rfl⟩ := work_eq_some_iff.1 hturn
      obtain ⟨phase, new, rfl, hmerges⟩ := merges_of_stepJob htaken
      have hworkers := workers_of_stepJob htaken
      have hphase := hpresent _ _ (mergeStep?_eq hturn rfl hjob hworkers)
      rw [notifications, hjob] at hquiet
      have hworker : s'.pool.jobOf? i = some job := by
        rwa [Pool.jobOf?, hworkers]
      refine .inr (jobs_setWorker_ne_nil hworker ?_)
      cases phase with
      | «over» =>
        have hsignal := signal_of_over hmerges rfl
        rw [Option.toList_some, List.countP_singleton, Job.wakes, hsignal] at hquiet
        contradiction
      | lost => exact absurd rfl hphase
      | _ => rfl
    | reap serial =>
      simp only [Store.turn, step, reap, bind, Option.bind_eq_some_iff, pure, Option.some.injEq]
        at hturn
      obtain ⟨c, -, name, -, rfl⟩ := hturn
      exact h
    | shutdown => exact absurd rfl hgo
  | files d =>
    obtain rfl := Option.some.inj hturn
    exact h
  | failMerge i f =>
    obtain ⟨job, hjob, -, rfl⟩ := failMerge_eq_some_iff.1 hturn
    have hphase := hpresent _ _ (mergeStep?_eq hturn rfl hjob rfl)
    refine .inr (jobs_setWorker_ne_nil hjob ?_)
    cases f with
    | error e => rfl
    | breach => exact absurd rfl hphase
  | failFlush i f =>
    obtain ⟨-, -, rfl⟩ := failFlush_eq_some_iff.1 hturn
    exact h

/-- A client that waits for merges noted the generation at some moment of the course. Since it found
the count raised there has been a notification, or there is one to come. -/
theorem exists_draining (hclients : s.clients = []) (hflows : s.Flows) {turns : List Turn}
    (hproper : ∀ τ ∈ turns, τ.Proper) (hgo : .action .shutdown ∉ turns)
    (hkept : s.trail breaks turns = []) (hcourse : s.course turns = some t) {i g : Nat}
    {task : Task} (htask : t.clients[i]? = some task)
    (hwaits : task = .draining g ∨ task = .drowse g ∨ task = .asleep g) :
    ∃ before since noted, turns = before ++ since ∧ s.course before = some noted ∧
      noted.course since = some t ∧ noted.clients[i]? = some (.draining g) ∧
      noted.board.tracker.generation = g ∧
      (task = .draining g ∨ 0 < noted.sum notifications since ∨ t.Lively) := by
  induction turns using List.reverseRecOn generalizing t task with
  | nil =>
    obtain rfl := Option.some.inj hcourse
    simp [hclients] at htask
  | append_singleton turns τ ih =>
    obtain ⟨u, hfirst, hturn⟩ := course_concat_eq_some_iff.1 hcourse
    have hturns : ∀ τ ∈ turns, τ.Proper := fun τ hτ => hproper τ (by simp [hτ])
    have hstays : .action .shutdown ∉ turns := fun h => hgo (List.mem_append_left _ h)
    have hlast : τ ≠ .action .shutdown := fun h => hgo (by simp [h])
    rw [trail_concat breaks τ hfirst, List.append_eq_nil_iff] at hkept
    have hu := hflows.course hturns hstays hkept.1 hfirst
    have hextend : ∀ {before : Task}, u.clients[i]? = some before →
        (before = .draining g ∨ before = .drowse g ∨ before = .asleep g) →
        (before = .draining g → task = .draining g ∨ t.Lively) →
        ∃ before since noted, turns ++ [τ] = before ++ since ∧ s.course before = some noted ∧
          noted.course since = some t ∧ noted.clients[i]? = some (.draining g) ∧
          noted.board.tracker.generation = g ∧
          (task = .draining g ∨ 0 < noted.sum notifications since ∨ t.Lively) := by
      intro before hbefore hwaits hleft
      obtain ⟨first, since, noted, rfl, hnoted, hsince, hdraining, hgeneration, hlively⟩ :=
        ih hturns hstays hkept.1 hfirst hbefore hwaits
      refine ⟨first, since ++ [τ], noted, List.append_assoc .., hnoted,
        course_concat_eq_some_iff.2 ⟨u, hsince, hturn⟩, hdraining, hgeneration, ?_⟩
      rw [sum_append notifications hsince, sum_cons notifications hturn]
      rcases hlively with hlooks | hsome | hlively
      · exact (hleft hlooks).imp id .inr
      · exact .inr (.inl (by omega))
      · by_cases hquiet : u.notifications τ = 0
        · exact .inr (.inr (hlively.turn hu hlast hkept.2 hquiet hturn))
        · exact .inr (.inl (by omega))
    rcases clients_turn (hproper τ (by simp)) hturn htask with
      hsame | hbegins | ⟨f, rfl⟩ | ⟨before, s', hbefore, htaken, hafter⟩
    · exact hextend hsame hwaits .inl
    · rcases hwaits with rfl | rfl | rfl <;> cases hbegins
    · rcases hwaits with h | h | h <;> contradiction
    · obtain ⟨new, hcalls⟩ := calls_of_stepTask htaken
      rcases hwaits with rfl | rfl | rfl
      · cases hcalls with
        | drain =>
          refine ⟨turns ++ [τ], [], t, (List.append_nil _).symm, hcourse, rfl, htask, ?_, .inl rfl⟩
          rw [hafter]
        | insert h => rcases h with h | h <;> contradiction
        | requested h => rcases h with h | h <;> contradiction
        | draining h => rcases h with h | h <;> contradiction
        | drowse h => rcases h with h | h <;> contradiction
      · cases hcalls with
        | draining h =>
          obtain rfl := Task.drowse.inj (h.resolve_left (by simp))
          refine hextend hbefore (.inl rfl) fun _ => .inr (.inl ?_)
          rw [hafter]
          simp only [stepTask, Option.some.injEq, Prod.mk.injEq] at htaken
          refine Nat.pos_of_ne_zero fun hzero => ?_
          rw [if_pos hzero] at htaken
          cases htaken.2
        | insert h => rcases h with h | h <;> contradiction
        | requested h => rcases h with h | h <;> contradiction
        | drowse h => rcases h with h | h <;> contradiction
      · cases hcalls with
        | drowse h =>
          obtain rfl := Task.asleep.inj (h.resolve_right (by simp))
          exact hextend hbefore (.inr (.inl rfl)) fun h => by contradiction
        | insert h => rcases h with h | h <;> contradiction
        | requested h => rcases h with h | h <;> contradiction
        | draining h => rcases h with h | h <;> contradiction

/-- A client about to wait for merges returns at once where none is in flight. -/
theorem exists_returned_of_drain {i : Nat} (htask : s.clients[i]? = some .drain)
    (hzero : s.inFlight = 0) :
    ∃ t, s.run [.client i, .client i] = some t ∧
      t.clients[i]? = some (.returned (.ok ())) := by
  have hi := (List.getElem?_eq_some_iff.1 htask).1
  let noted : Store :=
    { s with clients := s.clients.set i (.draining s.board.tracker.generation) }
  have hnoted : noted.clients[i]? = some (.draining s.board.tracker.generation) :=
    List.getElem?_set_self hi
  have hfirst : s.step (.client i) = some noted :=
    client_eq_some_iff.2 ⟨.drain, s, _, htask, rfl, rfl⟩
  have hanswer : noted.stepTask (.draining s.board.tracker.generation) =
      some (noted, .returned (.ok ())) := by
    rw [stepTask, if_pos hzero]
  have hsecond := client_eq_some_iff.2 ⟨_, noted, _, hnoted, hanswer, rfl⟩
  refine ⟨{ noted with clients := noted.clients.set i (.returned (.ok ())) }, ?_,
    List.getElem?_set_self (List.getElem?_eq_some_iff.1 hnoted).1⟩
  rw [run, hfirst, Option.bind_some, run, step, hsecond]
  rfl

/-- A client that waits for merges at a generation that has passed notes it anew, and returns where
none is in flight. -/
theorem exists_returned_of_released {i g : Nat} {task : Task} (htask : s.clients[i]? = some task)
    (hwaits : task = .drowse g ∨ task = .asleep g) (hmoved : s.board.tracker.generation ≠ g)
    (hzero : s.inFlight = 0) :
    ∃ t, s.run [.client i, .client i, .client i] = some t ∧
      t.clients[i]? = some (.returned (.ok ())) := by
  have hi := (List.getElem?_eq_some_iff.1 htask).1
  have hfree : s.board.tracker.holds g = false := decide_eq_false hmoved
  obtain ⟨s', hstep, hclients, hsame⟩ : ∃ s', s.stepTask task = some (s', .drain) ∧
      s'.clients = s.clients ∧ s'.inFlight = s.inFlight := by
    rcases hwaits with rfl | rfl
    · rw [stepTask, hfree]
      exact ⟨_, rfl, rfl, rfl⟩
    · rw [stepTask, hfree]
      exact ⟨_, rfl, rfl, rfl⟩
  have hfirst := client_eq_some_iff.2 ⟨task, s', .drain, htask, hstep, rfl⟩
  obtain ⟨t, hrun, hreturned⟩ := exists_returned_of_drain
    (s := { s' with clients := s'.clients.set i .drain }) (i := i)
    (by rw [hclients]; exact List.getElem?_set_self hi) (hsame.trans hzero)
  exact ⟨t, by rw [run, step, hfirst, Option.bind_some, hrun], hreturned⟩

/-- What is counted in flight are the merges that can still submit another; at zero none starts but
in a client's call of the policy. Whoever waits returns at zero only, and is not held there once all
merges have notified. -/
theorem draining_exact {options : Options} {policy : Policy} {codec : Codec} {files : Directory}
    {components : List Component} {s t : Store} {turns : List Turn}
    (hopen : ofComponents options policy codec files components = .ok s)
    (hproper : ∀ τ ∈ turns, τ.Proper) (hgo : .action .shutdown ∉ turns)
    (hkept : s.trail breaks turns = []) (hcourse : s.course turns = some t) :
    t.inFlight = t.pool.jobs.countP Job.isOpen + t.threads.countP Thread.isSubmitting ∧
    (t.inFlight = 0 → t.Drained ∧ ∀ more u, (∀ τ ∈ more, τ.Proper) → .action .shutdown ∉ more →
      t.trail breaks more = [] → t.course more = some u → t.sum invocations more = 0 →
      u.inFlight = 0 ∧ u.Drained) ∧
    (∀ (i : Nat) (task : Task) (u : Store) (answer : Outcome Unit), t.clients[i]? = some task →
      task.drains = true → t.step (.client i) = some u →
      u.clients[i]? = some (.returned answer) → t.inFlight = 0 ∧ t.Drained) ∧
    ∀ (i g : Nat) (task : Task), t.clients[i]? = some task →
      (task = .drowse g ∨ task = .asleep g) → t.inFlight = 0 → t.pool.jobs = [] →
      ∃ before since noted, turns = before ++ since ∧ s.course before = some noted ∧
        noted.course since = some t ∧ noted.clients[i]? = some (.draining g) ∧
        noted.board.tracker.generation = g ∧ 0 < noted.sum notifications since ∧
        (¬ Numeral.word ∣ noted.sum notifications since → t.board.tracker.generation ≠ g ∧
          ∃ u, t.run [.client i, .client i, .client i] = some u ∧
            u.clients[i]? = some (.returned (.ok ()))) := by
  obtain ⟨hthreads, -, hstart, hpool⟩ := fresh_ofComponents hopen
  have hflows : s.Flows := by
    refine ⟨hpool ▸ Pool.staffed_start _, ?_, ?_, ?_⟩
    · simp [hpool, Pool.start]
    · simp [hthreads]
    · simp [flight, hthreads, hstart]
  have ht := hflows.course hproper hgo hkept hcourse
  refine ⟨ht.inFlight_eq, fun hzero => ⟨ht.drained hzero, ?_⟩, ?_, ?_⟩
  · intro more u hmore hstays hlost hu hquiet
    have hstill := ht.inFlight_course hzero hmore hstays hlost hu hquiet
    exact ⟨hstill, (ht.course hmore hstays hlost hu).drained hstill⟩
  · intro i task u answer htask hdrains hstep hreturned
    have hzero := inFlight_of_returned htask hdrains hstep hreturned
    exact ⟨hzero, ht.drained hzero⟩
  · intro i g task htask hwaits hzero hjobs
    obtain ⟨before, since, noted, hsplit, hbefore, hsince, hdraining, hgeneration, hlively⟩ :=
      exists_draining (clients_ofComponents hopen) hflows hproper hgo hkept hcourse htask
        (.inr hwaits)
    have hsome : 0 < noted.sum notifications since := by
      rcases hlively with rfl | hsome | hflight | hmerges
      · rcases hwaits with h | h <;> contradiction
      · exact hsome
      · omega
      · exact absurd hjobs hmerges
    refine ⟨before, since, noted, hsplit, hbefore, hsince, hdraining, hgeneration, hsome,
      fun hwords => ?_⟩
    have hmoved := generation_ne hsince hwords
    rw [hgeneration] at hmoved
    exact ⟨hmoved, exists_returned_of_released htask hwaits hmoved hzero⟩

/-- A merge of two components fails as it reads, hands them back, calls the policy, and is counted
off. A client that came to wait behind its first notification is let go by the second. -/
theorem failed_merge_drained :
    let small (stamp : Nat) : Component :=
      { serial := stamp, range := .single stamp, size := 80 }
    let asked : List Action := .call .request :: List.replicate 15 (.client 0) ++
      [.call .drain, .take 0]
    let ended : List Action := List.replicate 6 (.work 0) ++ List.replicate 3 (.client 1) ++
      List.replicate 7 (.work 0)
    let turns : List Turn :=
      asked.map .action ++ .failMerge 0 (.error (.file .endOfFile)) :: ended.map .action
    ∃ s t u, ofComponents {} (.all 3) (.plain [.varying]) {} [small 1, small 0] = .ok s ∧
      s.course turns = some t ∧ t.inFlight = 0 ∧ t.Drained ∧ t.clients[1]? = some (.asleep 1) ∧
      t.run [.client 1, .client 1, .client 1] = some u ∧
      u.clients[1]? = some (.returned (.ok ())) := by
  intro small asked ended turns
  obtain ⟨s, hopen, hkept, hfew, hend⟩ : ∃ s,
      ofComponents {} (.all 3) (.plain [.varying]) {} [small 1, small 0] = .ok s ∧
      (s.trail breaks turns).isEmpty ∧ s.sum notifications turns = 2 ∧
      (s.course turns).map (fun t => (t.inFlight, t.pool.jobs.isEmpty, t.clients[1]?.map
        fun task => (task.drains, task.isAsleep, task.observed?))) =
          some (0, true, some (true, true, some 1)) :=
    ⟨_, rfl, by decide +kernel, by decide +kernel, by decide +kernel⟩
  obtain ⟨t, hcourse, hend⟩ := Option.map_eq_some_iff.1 hend
  simp only [Prod.mk.injEq, Option.map_eq_some_iff, List.isEmpty_iff] at hkept hend
  obtain ⟨hzero, hjobs, task, htask, hdrains, hasleep, hobserved⟩ := hend
  obtain rfl : task = .asleep 1 := by
    cases task with
    | asleep g => exact congrArg Task.asleep (Option.some.inj hobserved)
    | _ => contradiction
  have hproper : ∀ τ ∈ turns, τ.Proper ∧ τ ≠ .action .shutdown := by
    simp only [turns, asked, ended, List.forall_mem_append, List.forall_mem_cons,
      List.forall_mem_map, List.forall_mem_replicate]
    refine ⟨⟨⟨⟨.request, by simp⟩, .inr ⟨trivial, by simp⟩⟩, ⟨.drain, by simp⟩, ⟨trivial, by simp⟩,
      List.forall_mem_nil _⟩, ⟨trivial, by simp⟩,
      ⟨.inr ⟨trivial, by simp⟩, .inr ⟨trivial, by simp⟩⟩, .inr ⟨trivial, by simp⟩⟩
  obtain ⟨-, hdrained, -, hheld⟩ := draining_exact hopen (fun τ hτ => (hproper τ hτ).1)
    (fun h => (hproper _ h).2 rfl) hkept hcourse
  obtain ⟨before, since, noted, hsplit, hbefore, hsince, -, -, hsome, hreleased⟩ :=
    hheld 1 1 _ htask (.inr rfl) hzero hjobs
  have hshort : noted.sum notifications since < Numeral.word := by
    have hsum := sum_append notifications hbefore since
    rw [← hsplit, hfew] at hsum
    simp only [Numeral.word]
    omega
  obtain ⟨-, u, hu, hreturned⟩ := hreleased (Nat.not_dvd_of_pos_of_lt hsome hshort)
  exact ⟨s, t, u, hopen, hcourse, hzero, (hdrained hzero).1, htask, hu, hreturned⟩

end Store

end Strata
