import Strata.Proofs.Store.Parties
import Strata.Proofs.Store.Waiting

/-!
# Jobs submitted before a shutdown

One thread submits jobs to a pool and shuts it down, while the workers take messages and do jobs in
any order. A shutdown sends one stop message after the other, one for each worker, and waits until
all workers are gone. Each of them takes one stop, since it is gone then, and no job comes behind a
stop. So when the shutdown is over the queue is empty, and every job that was accepted has been done
once.
-/

namespace Strata

namespace Pool

variable {α : Type}

/-- Put one stop message behind what is queued. -/
def tell (p : Pool α) : Pool α := { p with queue := p.queue ++ [.stop] }

/-- Where the thread stands that uses a pool. -/
inductive Caller where
  | free
  /-- It shuts the pool down, with `left` stop messages to send before it waits for the workers. -/
  | closing (left : Nat)
deriving DecidableEq, Repr

/-- A pool, the thread that uses it, and what became of the jobs it submitted. -/
structure Session (α : Type) where
  pool : Pool α
  caller : Caller := .free
  accepted : List α := []
  refused : List (α × Error) := []
  /-- The jobs that workers have done. -/
  ran : List α := []
deriving DecidableEq

/-- What the thread or a worker does next. -/
inductive Event (α : Type) where
  | submit (job : α)
  | shutdown
  | tell
  /-- The shutdown is over, since the last worker is gone. -/
  | join
  | take (i : Nat)
  | finish (i : Nat)
deriving DecidableEq, Repr

namespace Event

/-- The job that is submitted. -/
def job? : Event α → Option α
  | .submit job => some job
  | _ => none

/-- Whether a shutdown is called. -/
def isShutdown : Event α → Bool
  | .shutdown => true
  | _ => false

end Event

namespace Session

/-- A pool that was just started. -/
def start (threads : Nat) : Session α where
  pool := Pool.start threads

/-- One event, unless it is not possible. The thread makes no call while it is in a shutdown. The
first shutdown takes the workers to wait for with it, so a later one has none to tell or to wait
for. -/
def step (s : Session α) : Event α → Option (Session α)
  | .submit job =>
    match s.caller, s.pool.submit job with
    | .free, .ok pool => some { s with pool, accepted := s.accepted ++ [job] }
    | .free, .error cause => some { s with refused := s.refused ++ [(job, cause)] }
    | .closing _, _ => none
  | .shutdown =>
    match s.caller with
    | .free =>
      if s.pool.closing then some s
      else
        some { s with
          pool := { s.pool with closing := true }
          caller := .closing s.pool.workers.length }
    | .closing _ => none
  | .tell =>
    match s.caller with
    | .closing (left + 1) => some { s with pool := s.pool.tell, caller := .closing left }
    | _ => none
  | .join =>
    match s.caller with
    | .closing 0 => if s.pool.isClosed then some { s with caller := .free } else none
    | _ => none
  | .take i => (s.pool.take i).map fun pool => { s with pool }
  | .finish i => (s.pool.finish i).map fun (pool, job) => { s with pool, ran := s.ran ++ [job] }

/-- Events one after the other. -/
def course (s : Session α) : List (Event α) → Option (Session α)
  | [] => some s
  | event :: rest => (s.step event).bind fun t => t.course rest

end Session

/-! ### What workers do to a pool -/

section

variable {p q : Pool α} {i : Nat}

/-- A worker that takes a message takes the oldest, and is at that job, or gone. -/
theorem take_cases (h : p.take i = some q) :
    p.workers[i]? = some .idle ∧ ∃ message queue, p.queue = message :: queue ∧
      ((∃ job, message = .run job ∧ q = { p with queue }.setWorker i (.busy job)) ∨
        message = .stop ∧ q = { p with queue }.setWorker i .gone) := by
  unfold take at h
  split at h
  · rename_i job queue hidle hqueue
    exact ⟨hidle, _, queue, hqueue, .inl ⟨job, rfl, (Option.some.inj h).symm⟩⟩
  · rename_i queue hidle hqueue
    exact ⟨hidle, _, queue, hqueue, .inr ⟨rfl, (Option.some.inj h).symm⟩⟩
  · contradiction

theorem finish_eq_some_iff {job : α} :
    p.finish i = some (q, job) ↔
      p.workers[i]? = some (.busy job) ∧ q = p.setWorker i .idle := by
  simp only [finish, Option.map_eq_some_iff, jobOf?_eq_some_iff, Prod.mk.injEq]
  constructor
  · rintro ⟨job', hbusy, rfl, rfl⟩
    exact ⟨hbusy, rfl⟩
  · rintro ⟨hbusy, rfl⟩
    exact ⟨job, hbusy, rfl, rfl⟩

/-- The workers that are gone. -/
def gone (p : Pool α) : Nat := p.workers.countP isGone

theorem isClosed_iff_gone : p.isClosed = true ↔ p.gone = p.workers.length := by
  rw [isClosed, List.all_eq_true, gone, List.countP_eq_length]

theorem gone_setWorker {worker : Worker α} (h : p.workers[i]? = some worker) (worker' : Worker α) :
    (p.setWorker i worker').gone + (isGone worker).toNat = p.gone + (isGone worker').toNat :=
  countP_set_add isGone h worker'

theorem gone_lt_of_worker {worker : Worker α} (h : p.workers[i]? = some worker)
    (hworker : isGone worker = false) : p.gone < p.workers.length := by
  refine Nat.lt_of_le_of_ne List.countP_le_length fun heq => ?_
  have hall := List.countP_eq_length.1 heq worker (List.mem_of_getElem? h)
  rw [hworker] at hall
  contradiction

theorem exists_worker_of_not_closed (h : p.isClosed = false) :
    ∃ (i : Nat) (worker : Worker α), p.workers[i]? = some worker ∧ isGone worker = false := by
  obtain ⟨worker, hmem, hworker⟩ := List.all_eq_false.1 h
  obtain ⟨i, hi⟩ := List.mem_iff_getElem?.1 hmem
  exact ⟨i, worker, hi, by simpa using hworker⟩

end

namespace Session

variable {threads : Nat} {s t : Session α} {event : Event α}

/-- The stop messages that are still to be sent. -/
def left (s : Session α) : Nat :=
  match s.caller with
  | .free => 0
  | .closing left => left

/-- What holds of a pool that one thread uses: jobs are neither lost nor doubled, stops stand behind
all jobs, and there is a stop for each worker that stays. -/
structure Kept (threads : Nat) (s : Session α) : Prop where
  staff : s.pool.workers.length = max threads 1
  jobs : (s.ran ++ s.pool.jobs).Perm s.accepted
  behind : ∃ jobs stops, s.pool.queue = jobs.map .run ++ List.replicate stops .stop ∧
    (s.pool.gone ≠ 0 → jobs = []) ∧
    stops + s.left + s.pool.gone = if s.pool.closing then s.pool.workers.length else 0
  opened : s.pool.closing = false → s.caller = .free
  closed : s.pool.closing = true → s.caller = .free → s.pool.isClosed = true

theorem kept_start (threads : Nat) : Kept threads (start threads : Session α) where
  staff := List.length_replicate
  jobs := by simp [start]
  behind := by
    refine ⟨[], 0, rfl, fun _ => rfl, ?_⟩
    simp [start, left, gone, Pool.start, List.countP_replicate, isGone]
  opened _ := rfl
  closed h := by simp [start, Pool.start] at h

namespace Kept

/-- Before the first shutdown no worker is gone. -/
theorem isClosed_eq (h : Kept threads s) (hopen : s.pool.closing = false) :
    s.pool.isClosed = false := by
  obtain ⟨jobs, stops, -, -, hcount⟩ := h.behind
  simp only [hopen, Bool.false_eq_true, if_false] at hcount
  have hstaff := h.staff
  rw [← Bool.not_eq_true, isClosed_iff_gone]
  omega

theorem closing_of_caller (h : Kept threads s) {left : Nat} (hcaller : s.caller = .closing left) :
    s.pool.closing = true := by
  by_contra hnot
  have hfree := h.opened (by simpa using hnot)
  rw [hcaller] at hfree
  contradiction

/-- A worker that is not gone does not let the pool be closed. -/
theorem busy (h : Kept threads s) {i : Nat} {worker : Worker α}
    (hworker : s.pool.workers[i]? = some worker) (hgone : isGone worker = false) :
    s.pool.closing = true → s.caller ≠ .free := by
  intro hclosing hfree
  have hclosed := isClosed_iff_gone.1 (h.closed hclosing hfree)
  have hlt := gone_lt_of_worker hworker hgone
  omega

theorem submit (h : Kept threads s) {job : α} {pool : Pool α} (hopen : s.pool.closing = false)
    (hsubmit : s.pool.submit job = .ok pool) :
    Kept threads { s with pool, accepted := s.accepted ++ [job] } := by
  obtain ⟨-, hjobs⟩ := jobs_submit hsubmit
  obtain rfl := submit_eq_ok hsubmit
  obtain ⟨jobs, stops, hqueue, hlate, hcount⟩ := h.behind
  simp only [hopen, Bool.false_eq_true, if_false] at hcount
  refine ⟨h.staff, ?_, ⟨jobs ++ [job], 0, ?_, ?_, ?_⟩, h.opened, h.closed⟩
  · refine (hjobs.append_left _).trans (List.perm_middle.trans ?_)
    exact (h.jobs.cons job).trans (List.perm_append_singleton ..).symm
  · obtain rfl : stops = 0 := by omega
    simp [hqueue]
  · intro hgone
    have : s.pool.gone ≠ 0 := hgone
    omega
  · show 0 + s.left + s.pool.gone = if s.pool.closing then s.pool.workers.length else 0
    simp only [hopen, Bool.false_eq_true, if_false]
    omega

theorem shutdown (h : Kept threads s) (hopen : s.pool.closing = false) :
    Kept threads { s with
      pool := { s.pool with closing := true }
      caller := .closing s.pool.workers.length } := by
  obtain ⟨jobs, stops, hqueue, hlate, hcount⟩ := h.behind
  simp only [hopen, Bool.false_eq_true, if_false] at hcount
  refine ⟨h.staff, h.jobs, ⟨jobs, stops, hqueue, hlate, ?_⟩, by simp, by simp⟩
  show stops + s.pool.workers.length + s.pool.gone = s.pool.workers.length
  omega

theorem tell (h : Kept threads s) {left : Nat} (hcaller : s.caller = .closing (left + 1)) :
    Kept threads { s with pool := s.pool.tell, caller := .closing left } := by
  obtain ⟨jobs, stops, hqueue, hlate, hcount⟩ := h.behind
  refine ⟨h.staff, ?_, ⟨jobs, stops + 1, ?_, hlate, ?_⟩, fun hopen => ?_, by simp⟩
  · have hjobs : s.pool.tell.jobs = s.pool.jobs := by
      simp [Pool.jobs, Pool.tell, Message.job?]
    rw [hjobs]
    exact h.jobs
  · simp [Pool.tell, hqueue, List.replicate_succ']
  · show stops + 1 + left + s.pool.gone = if s.pool.closing then s.pool.workers.length else 0
    simp only [Session.left, hcaller] at hcount
    omega
  · have hfree := h.opened hopen
    rw [hcaller] at hfree
    contradiction

theorem join (h : Kept threads s) (hcaller : s.caller = .closing 0)
    (hclosed : s.pool.isClosed = true) : Kept threads { s with caller := .free } := by
  obtain ⟨jobs, stops, hqueue, hlate, hcount⟩ := h.behind
  refine ⟨h.staff, h.jobs, ⟨jobs, stops, hqueue, hlate, ?_⟩, fun _ => rfl, fun _ _ => hclosed⟩
  show stops + 0 + s.pool.gone = _
  simpa only [Session.left, hcaller] using hcount

theorem take (h : Kept threads s) {i : Nat} {pool : Pool α} (htake : s.pool.take i = some pool) :
    Kept threads { s with pool } := by
  have hjobs := jobs_take htake
  obtain ⟨hidle, message, queue, hmessage, hcases⟩ := take_cases htake
  obtain ⟨jobs, stops, hqueue, hlate, hcount⟩ := h.behind
  have hbusy := h.busy hidle rfl
  rw [hmessage] at hqueue
  have hstaff : pool.workers.length = s.pool.workers.length ∧ pool.closing = s.pool.closing := by
    rcases hcases with ⟨job, -, rfl⟩ | ⟨-, rfl⟩
    · exact ⟨List.length_set, rfl⟩
    · exact ⟨List.length_set, rfl⟩
  refine ⟨hstaff.1.trans h.staff, (hjobs.append_left _).trans h.jobs, ?_, ?_, ?_⟩
  · simp only [hstaff]
    rcases hcases with ⟨job, rfl, rfl⟩ | ⟨rfl, rfl⟩
    · have hgone := gone_setWorker (p := { s.pool with queue }) hidle (.busy job)
      simp only [isGone, Bool.toNat_false, Nat.add_zero] at hgone
      cases jobs with
      | nil =>
        -- only a stop could come first
        cases stops with
        | zero => simp at hqueue
        | succ stops => simp [List.replicate_succ] at hqueue
      | cons first rest =>
        obtain ⟨-, rfl⟩ := List.cons.inj hqueue
        refine ⟨rest, stops, rfl, fun hne => ?_, ?_⟩
        · rw [hgone] at hne
          exact absurd (hlate hne) (List.cons_ne_nil _ _)
        · rw [hgone]
          exact hcount
    · have hgone := gone_setWorker (p := { s.pool with queue }) hidle .gone
      simp only [isGone, Bool.toNat_false, Bool.toNat_true, Nat.add_zero] at hgone
      cases jobs with
      | cons first rest => simp at hqueue
      | nil =>
        cases stops with
        | zero => simp at hqueue
        | succ stops =>
          obtain ⟨-, rfl⟩ := List.cons.inj hqueue
          refine ⟨[], stops, rfl, fun _ => rfl, ?_⟩
          rw [hgone, ← hcount]
          show stops + s.left + (s.pool.gone + 1) = _
          omega
  · intro hopen
    exact h.opened (hstaff.2 ▸ hopen)
  · intro hclosing hfree
    exact absurd hfree (hbusy (hstaff.2 ▸ hclosing))

theorem finish (h : Kept threads s) {i : Nat} {pool : Pool α} {job : α}
    (hfinish : s.pool.finish i = some (pool, job)) :
    Kept threads { s with pool, ran := s.ran ++ [job] } := by
  obtain ⟨hworker, rfl⟩ := finish_eq_some_iff.1 hfinish
  obtain ⟨jobs, stops, hqueue, hlate, hcount⟩ := h.behind
  have hgone := gone_setWorker hworker .idle
  simp only [isGone, Bool.toNat_false, Nat.add_zero] at hgone
  refine ⟨List.length_set.trans h.staff, ?_, ⟨jobs, stops, hqueue, ?_, ?_⟩, h.opened, ?_⟩
  · have hjob := jobOf?_eq_some_iff.2 hworker
    obtain ⟨others, hothers⟩ := exists_jobs_perm hjob
    have hrest := jobs_setWorker hjob hothers .idle
    refine List.Perm.trans ?_ h.jobs
    rw [List.append_assoc]
    exact ((hrest.cons job).trans hothers.symm).append_left s.ran
  · rw [hgone]
    exact hlate
  · rw [hgone, setWorker, List.length_set]
    exact hcount
  · intro hclosing hfree
    exact absurd hfree (h.busy hworker rfl hclosing)

end Kept

/-- What is kept at every event. -/
theorem kept_step (h : Kept threads s) (hstep : s.step event = some t) : Kept threads t := by
  cases event with
  | submit job =>
    simp only [step] at hstep
    split at hstep
    · rename_i hfree hsubmit
      obtain rfl := Option.some.inj hstep
      refine h.submit ?_ hsubmit
      by_contra hnot
      have hclosed := h.closed (by simpa using hnot) hfree
      simp [Pool.submit, hclosed] at hsubmit
    · obtain rfl := Option.some.inj hstep
      exact ⟨h.staff, h.jobs, h.behind, h.opened, h.closed⟩
    · contradiction
  | shutdown =>
    simp only [step] at hstep
    split at hstep
    · split at hstep
      · obtain rfl := Option.some.inj hstep
        exact h
      · rename_i hopen
        obtain rfl := Option.some.inj hstep
        exact h.shutdown (by simpa using hopen)
    · contradiction
  | tell =>
    simp only [step] at hstep
    split at hstep
    · obtain rfl := Option.some.inj hstep
      exact h.tell ‹_›
    · contradiction
  | join =>
    simp only [step] at hstep
    split at hstep
    · split at hstep
      · obtain rfl := Option.some.inj hstep
        exact h.join ‹_› ‹_›
      · contradiction
    · contradiction
  | take i =>
    obtain ⟨pool, htake, rfl⟩ := Option.map_eq_some_iff.1 hstep
    exact h.take htake
  | finish i =>
    obtain ⟨⟨pool, job⟩, hfinish, rfl⟩ := Option.map_eq_some_iff.1 hstep
    exact h.finish hfinish

theorem kept_course {events : List (Event α)} (h : Kept threads s)
    (hcourse : s.course events = some t) : Kept threads t := by
  induction events generalizing s with
  | nil =>
    obtain rfl := Option.some.inj hcourse
    exact h
  | cons event rest ih =>
    obtain ⟨u, hstep, hrest⟩ := Option.bind_eq_some_iff.1 hcourse
    exact ih (kept_step h hstep) hrest

/-! ### What is accepted and what is refused -/

/-- Before the first shutdown every job is accepted. -/
theorem step_of_open (h : Kept threads s) (hopen : s.pool.closing = false)
    (hstep : s.step event = some t) :
    t.accepted = s.accepted ++ event.job?.toList ∧ t.refused = s.refused ∧
      t.pool.closing = event.isShutdown := by
  have hfree := h.opened hopen
  cases event with
  | submit job =>
    have hsubmit : s.pool.submit job = .ok { s.pool with queue := s.pool.queue ++ [.run job] } := by
      simp [Pool.submit, h.isClosed_eq hopen]
    simp only [step, hfree, hsubmit, Option.some.injEq] at hstep
    subst hstep
    exact ⟨rfl, rfl, hopen⟩
  | shutdown =>
    simp only [step, hfree, hopen, Bool.false_eq_true, if_false, Option.some.injEq] at hstep
    subst hstep
    exact ⟨(List.append_nil _).symm, rfl, rfl⟩
  | tell => simp [step, hfree] at hstep
  | join => simp [step, hfree] at hstep
  | take i =>
    obtain ⟨pool, htake, rfl⟩ := Option.map_eq_some_iff.1 hstep
    refine ⟨(List.append_nil _).symm, rfl, ?_⟩
    obtain ⟨-, message, queue, -, ⟨job, -, rfl⟩ | ⟨-, rfl⟩⟩ := take_cases htake <;> exact hopen
  | finish i =>
    obtain ⟨⟨pool, job⟩, hfinish, rfl⟩ := Option.map_eq_some_iff.1 hstep
    obtain ⟨-, rfl⟩ := finish_eq_some_iff.1 hfinish
    exact ⟨(List.append_nil _).symm, rfl, hopen⟩

/-- From the first shutdown on every job is refused. Once it is over, all workers are gone, so there
is nothing but calls, and they change nothing else. -/
theorem step_of_closing (h : Kept threads s) (hclosing : s.pool.closing = true)
    (hstep : s.step event = some t) :
    t.pool.closing = true ∧ t.accepted = s.accepted ∧
      t.refused = s.refused ++ event.job?.toList.map (·, .refusal .workersGone) ∧
      (s.caller = .free → t.caller = .free ∧ t.pool = s.pool ∧ t.ran = s.ran) := by
  cases event with
  | submit job =>
    cases hcaller : s.caller with
    | closing left => simp [step, hcaller] at hstep
    | free =>
      have hsubmit : s.pool.submit job = .error (.refusal .workersGone) := by
        simp [Pool.submit, h.closed hclosing hcaller]
      simp only [step, hcaller, hsubmit, Option.some.injEq] at hstep
      subst hstep
      exact ⟨hclosing, rfl, rfl, fun _ => ⟨rfl, rfl, rfl⟩⟩
  | shutdown =>
    cases hcaller : s.caller with
    | closing left => simp [step, hcaller] at hstep
    | free =>
      simp only [step, hcaller, hclosing, if_true, Option.some.injEq] at hstep
      subst hstep
      exact ⟨hclosing, rfl, (List.append_nil _).symm, fun _ => ⟨hcaller, rfl, rfl⟩⟩
  | tell =>
    simp only [step] at hstep
    split at hstep
    · rename_i hcaller
      obtain rfl := Option.some.inj hstep
      exact ⟨hclosing, rfl, (List.append_nil _).symm, by simp [hcaller]⟩
    · contradiction
  | join =>
    simp only [step] at hstep
    split at hstep
    · split at hstep
      · rename_i hcaller _
        obtain rfl := Option.some.inj hstep
        exact ⟨hclosing, rfl, (List.append_nil _).symm, by simp [hcaller]⟩
      · contradiction
    · contradiction
  | take i =>
    obtain ⟨pool, htake, rfl⟩ := Option.map_eq_some_iff.1 hstep
    obtain ⟨hidle, message, queue, -, hcases⟩ := take_cases htake
    refine ⟨?_, rfl, (List.append_nil _).symm,
      fun hfree => absurd hfree (h.busy hidle rfl hclosing)⟩
    rcases hcases with ⟨job, -, rfl⟩ | ⟨-, rfl⟩ <;> exact hclosing
  | finish i =>
    obtain ⟨⟨pool, job⟩, hfinish, rfl⟩ := Option.map_eq_some_iff.1 hstep
    obtain ⟨hworker, rfl⟩ := finish_eq_some_iff.1 hfinish
    exact ⟨hclosing, rfl, (List.append_nil _).symm,
      fun hfree => absurd hfree (h.busy hworker rfl hclosing)⟩

theorem course_of_closing {events : List (Event α)} (h : Kept threads s)
    (hclosing : s.pool.closing = true) (hcourse : s.course events = some t) :
    t.pool.closing = true ∧ t.accepted = s.accepted ∧
      t.refused = s.refused ++ (events.filterMap Event.job?).map (·, .refusal .workersGone) ∧
      (s.caller = .free → t.caller = .free ∧ t.pool = s.pool ∧ t.ran = s.ran) := by
  induction events generalizing s with
  | nil =>
    obtain rfl := Option.some.inj hcourse
    exact ⟨hclosing, rfl, (List.append_nil _).symm, fun hfree => ⟨hfree, rfl, rfl⟩⟩
  | cons event rest ih =>
    obtain ⟨u, hstep, hrest⟩ := Option.bind_eq_some_iff.1 hcourse
    obtain ⟨hclosing', haccepted, hrefused, hover⟩ := step_of_closing h hclosing hstep
    obtain ⟨hclosing'', haccepted', hrefused', hover'⟩ := ih (kept_step h hstep) hclosing' hrest
    refine ⟨hclosing'', haccepted'.trans haccepted, ?_, fun hfree => ?_⟩
    · rw [hrefused', hrefused, List.append_assoc]
      cases event <;> rfl
    · obtain ⟨hfree', hpool, hran⟩ := hover hfree
      obtain ⟨hfree'', hpool', hran'⟩ := hover' hfree'
      exact ⟨hfree'', hpool'.trans hpool, hran'.trans hran⟩

/-- The jobs submitted before the first shutdown are accepted, and those submitted after it are
refused. -/
theorem course_of_open {events : List (Event α)} (h : Kept threads s)
    (hopen : s.pool.closing = false) (hcourse : s.course events = some t) :
    t.pool.closing = events.any Event.isShutdown ∧
      t.accepted = s.accepted ++
        (events.takeWhile (!·.isShutdown)).filterMap Event.job? ∧
      t.refused = s.refused ++
        ((events.dropWhile (!·.isShutdown)).filterMap Event.job?).map
          (·, .refusal .workersGone) := by
  induction events generalizing s with
  | nil =>
    obtain rfl := Option.some.inj hcourse
    exact ⟨hopen, (List.append_nil _).symm, (List.append_nil _).symm⟩
  | cons event rest ih =>
    obtain ⟨u, hstep, hrest⟩ := Option.bind_eq_some_iff.1 hcourse
    obtain ⟨haccepted, hrefused, hclosing⟩ := step_of_open h hopen hstep
    have hkept := kept_step h hstep
    cases hshutdown : event.isShutdown with
    | true =>
      rw [hshutdown] at hclosing
      obtain ⟨hclosing', haccepted', hrefused', -⟩ := course_of_closing hkept hclosing hrest
      have hjob : event.job? = none := by
        cases event <;> first | rfl | simp [Event.isShutdown] at hshutdown
      rw [hjob, Option.toList_none, List.append_nil] at haccepted
      simp only [List.any_cons, hshutdown, Bool.true_or, List.takeWhile_cons, List.dropWhile_cons,
        Bool.not_true, Bool.false_eq_true, if_false, List.filterMap_cons_none hjob,
        List.filterMap_nil, List.append_nil]
      exact ⟨hclosing', haccepted'.trans haccepted, hrefused'.trans (by rw [hrefused])⟩
    | false =>
      rw [hshutdown] at hclosing
      obtain ⟨hclosing', haccepted', hrefused'⟩ := ih hkept hclosing hrest
      simp only [List.any_cons, hshutdown, Bool.false_or, List.takeWhile_cons, List.dropWhile_cons,
        Bool.not_false, if_true]
      refine ⟨hclosing', ?_, hrefused'.trans (by rw [hrefused])⟩
      rw [haccepted', haccepted, List.append_assoc]
      cases event <;> rfl

/-! ### A shutdown comes to its end -/

/-- The events until a shutdown is over: two for a job in the queue, one for a job that a worker is
at, two for a stop that is to be sent, one for a stop in the queue, and the last. -/
def remaining (s : Session α) : Nat :=
  s.pool.queue.length + s.pool.queue.countP isRun + s.pool.workers.countP isBusy +
    match s.caller with
    | .free => 0
    | .closing left => 2 * left + 1

/-- In a shutdown, any event brings its end nearer. -/
theorem remaining_step {left : Nat} (hcaller : s.caller = .closing left)
    (hstep : s.step event = some t) : t.remaining + 1 = s.remaining := by
  cases event with
  | submit job => simp [step, hcaller] at hstep
  | shutdown => simp [step, hcaller] at hstep
  | tell =>
    simp only [step] at hstep
    split at hstep
    · rename_i left' hcaller'
      obtain rfl := Option.some.inj hstep
      simp only [remaining, Pool.tell, hcaller', List.length_append, List.length_singleton,
        List.countP_append, List.countP_singleton, isRun, Bool.false_eq_true, if_false]
      omega
    · contradiction
  | join =>
    simp only [step] at hstep
    split at hstep
    · split at hstep
      · rename_i hcaller' hclosed
        obtain rfl := Option.some.inj hstep
        simp only [remaining, hcaller']
      · contradiction
    · contradiction
  | take i =>
    obtain ⟨pool, htake, rfl⟩ := Option.map_eq_some_iff.1 hstep
    obtain ⟨hidle, message, queue, hqueue, ⟨job, rfl, rfl⟩ | ⟨rfl, rfl⟩⟩ := take_cases htake
    · have hbusy := countP_set_add isBusy hidle (.busy job)
      simp only [isBusy, Bool.toNat_false, Bool.toNat_true, Nat.add_zero] at hbusy
      simp only [remaining, setWorker, hqueue, hcaller, hbusy, List.length_cons, List.countP_cons,
        isRun, if_true]
      omega
    · have hbusy := countP_set_add isBusy hidle .gone
      simp only [isBusy, Bool.toNat_false, Nat.add_zero] at hbusy
      simp only [remaining, setWorker, hqueue, hcaller, hbusy, List.length_cons, List.countP_cons,
        isRun, Bool.false_eq_true, if_false]
      omega
  | finish i =>
    obtain ⟨⟨pool, job⟩, hfinish, rfl⟩ := Option.map_eq_some_iff.1 hstep
    obtain ⟨hworker, rfl⟩ := finish_eq_some_iff.1 hfinish
    have hbusy := countP_set_add isBusy hworker .idle
    simp only [isBusy, Bool.toNat_false, Bool.toNat_true, Nat.add_zero] at hbusy
    simp only [remaining, setWorker, hcaller, ← hbusy]
    omega

theorem remaining_course {events : List (Event α)} {left left' : Nat} (h : Kept threads s)
    (hcaller : s.caller = .closing left) (hcaller' : t.caller = .closing left')
    (hcourse : s.course events = some t) : events.length + t.remaining = s.remaining := by
  induction events generalizing s left with
  | nil =>
    obtain rfl := Option.some.inj hcourse
    simp
  | cons event rest ih =>
    obtain ⟨u, hstep, hrest⟩ := Option.bind_eq_some_iff.1 hcourse
    have hlower := remaining_step hcaller hstep
    have hkept := kept_step h hstep
    have hclosing' := (step_of_closing h (h.closing_of_caller hcaller) hstep).1
    cases hbetween : u.caller with
    | free =>
      -- a thread that is back from its first shutdown is in none again
      have hfree := ((course_of_closing hkept hclosing' hrest).2.2.2 hbetween).1
      rw [hcaller'] at hfree
      contradiction
    | closing left'' =>
      have hgoal := ih hkept hbetween hrest
      simp only [List.length_cons]
      omega

/-- A shutdown waits for nothing: there are stops to send, or messages to take, or jobs to finish,
or it is over. -/
theorem exists_step {left : Nat} (h : Kept threads s) (hcaller : s.caller = .closing left) :
    ∃ event, (s.step event).isSome = true := by
  cases left with
  | succ left => exact ⟨.tell, by simp [step, hcaller]⟩
  | zero =>
    cases hclosed : s.pool.isClosed with
    | true => exact ⟨.join, by simp [step, hcaller, hclosed]⟩
    | false =>
      obtain ⟨i, worker, hworker, hgone⟩ := exists_worker_of_not_closed hclosed
      cases worker with
      | gone => simp [isGone] at hgone
      | busy job =>
        exact ⟨.finish i, by simp [step, finish_eq_some_iff.2 ⟨hworker, rfl⟩]⟩
      | idle =>
        refine ⟨.take i, ?_⟩
        -- there is a stop for each worker that stays, so the queue is not empty
        have hlt := gone_lt_of_worker hworker hgone
        obtain ⟨jobs, stops, hqueue, -, hcount⟩ := h.behind
        simp only [Session.left, hcaller, h.closing_of_caller hcaller, if_true] at hcount
        have hlength := congrArg List.length hqueue
        simp only [List.length_append, List.length_map, List.length_replicate] at hlength
        cases hmessages : s.pool.queue with
        | nil =>
          rw [hmessages, List.length_nil] at hlength
          omega
        | cons message queue => cases message <;> simp [step, Pool.take, hworker, hmessages]

/-- To send the stops without a break is to shut down at once. -/
theorem course_tell (s : Session α) (left : Nat) :
    { s with caller := .closing left }.course (List.replicate left .tell) =
      some { s with
        pool := { s.pool with queue := s.pool.queue ++ List.replicate left .stop }
        caller := .closing 0 } := by
  induction left generalizing s with
  | zero => simp [course]
  | succ left ih =>
    rw [List.replicate_succ, course]
    refine (ih { s with pool := s.pool.tell }).trans ?_
    simp [Pool.tell, List.replicate_succ]

theorem course_shutdown (hfree : s.caller = .free) (hopen : s.pool.closing = false) :
    s.course (.shutdown :: List.replicate s.pool.workers.length .tell) =
      some { s with pool := s.pool.shutdown, caller := .closing 0 } := by
  have hstep : s.step .shutdown = some { s with
      pool := { s.pool with closing := true }
      caller := .closing s.pool.workers.length } := by
    simp [step, hfree, hopen]
  rw [course, hstep, Option.bind_some, Pool.shutdown, if_neg (by simp [hopen])]
  exact course_tell { s with pool := { s.pool with closing := true } } _

/-- Once a shutdown is over, the queue is empty and no worker is at a job. -/
theorem Kept.over (h : Kept threads s) (hclosing : s.pool.closing = true)
    (hfree : s.caller = .free) :
    s.pool.isClosed = true ∧ s.pool.queue = [] ∧ s.ran.Perm s.accepted := by
  have hclosed := h.closed hclosing hfree
  have hgone := isClosed_iff_gone.1 hclosed
  have hstaff := h.staff
  obtain ⟨jobs, stops, hqueue, hlate, hcount⟩ := h.behind
  simp only [hclosing, if_true] at hcount
  obtain rfl : stops = 0 := by omega
  rw [hlate (by omega), List.map_nil, List.replicate_zero, List.append_nil] at hqueue
  have hidle : s.pool.workers.filterMap Worker.job? = [] := by
    rw [List.filterMap_eq_nil_iff]
    intro worker hworker
    have hall := List.countP_eq_length.1 hgone worker hworker
    cases worker <;> first | rfl | simp [isGone] at hall
  have hjobs := h.jobs
  rw [Pool.jobs, hqueue, hidle, List.filterMap_nil, List.append_nil, List.append_nil] at hjobs
  exact ⟨hclosed, hqueue, hjobs⟩

/-- However workers take turns, no job is done twice, and none is lost. All jobs submitted before
the first shutdown are done when it is over, later ones are refused, and a later shutdown changes
nothing. A shutdown comes to its end. -/
theorem jobs_run_once_before_shutdown_returns (threads : Nat) (events : List (Event α))
    (s : Session α) (hcourse : (start threads).course events = some s) :
    s.pool.workers.length = max threads 1 ∧
    (s.ran ++ s.pool.jobs).Perm s.accepted ∧
    s.accepted = (events.takeWhile (!·.isShutdown)).filterMap Event.job? ∧
    s.refused =
      ((events.dropWhile (!·.isShutdown)).filterMap Event.job?).map (·, .refusal .workersGone) ∧
    (s.caller = .free → events.any Event.isShutdown = true →
      s.ran.Perm s.accepted ∧ s.pool.queue = [] ∧ s.pool.isClosed = true ∧
      s.step .shutdown = some s ∧
      ∀ later t, s.course later = some t →
        t.caller = .free ∧ t.pool = s.pool ∧ t.ran = s.ran ∧ t.accepted = s.accepted) ∧
    (s.caller = .free → events.any Event.isShutdown = false →
      s.course (.shutdown :: List.replicate s.pool.workers.length .tell) =
        some { s with pool := s.pool.shutdown, caller := .closing 0 }) ∧
    (s.caller ≠ .free → (∃ event, (s.step event).isSome = true) ∧
      ∀ later t, s.course later = some t → t.caller ≠ .free →
        later.length + t.remaining = s.remaining) := by
  have hkept := kept_course (kept_start threads) hcourse
  obtain ⟨hclosing, haccepted, hrefused⟩ := course_of_open (kept_start threads) rfl hcourse
  refine ⟨hkept.staff, hkept.jobs, haccepted, hrefused, ?_, ?_, ?_⟩
  · intro hfree hany
    rw [hany] at hclosing
    obtain ⟨hclosed, hqueue, hran⟩ := hkept.over hclosing hfree
    refine ⟨hran, hqueue, hclosed, by simp [step, hfree, hclosing], fun later t hlater => ?_⟩
    obtain ⟨-, haccepted', -, hover⟩ := course_of_closing hkept hclosing hlater
    obtain ⟨hfree', hpool, hran'⟩ := hover hfree
    exact ⟨hfree', hpool, hran', haccepted'⟩
  · intro hfree hany
    exact course_shutdown hfree (hclosing.trans hany)
  · intro hinside
    cases hcaller : s.caller with
    | free => exact absurd hcaller hinside
    | closing left =>
      refine ⟨exists_step hkept hcaller, fun later t hlater hinside' => ?_⟩
      cases hcaller' : t.caller with
      | free => exact absurd hcaller' hinside'
      | closing left' => exact remaining_course hkept hcaller hcaller' hlater

/-- Of two jobs, one is taken between the two stops and the other is at a worker all the while. -/
theorem two_jobs_run_before_shutdown_returns :
    let events : List (Event Nat) :=
      [.submit 7, .take 1, .submit 8, .shutdown, .tell, .take 0, .finish 0, .take 0, .tell,
        .finish 1, .take 1, .join, .submit 9, .shutdown]
    ∃ s, (start 2).course events = some s ∧ s.accepted = [7, 8] ∧ s.ran = [8, 7] ∧
      s.refused = [(9, .refusal .workersGone)] ∧ s.ran.Perm s.accepted ∧ s.pool.queue = [] := by
  intro events
  obtain ⟨s, hcourse⟩ : ∃ s, (start 2).course events = some s := ⟨_, rfl⟩
  have hran : s.ran = [8, 7] := by
    obtain rfl := Option.some.inj hcourse
    rfl
  have hfree : s.caller = .free := by
    obtain rfl := Option.some.inj hcourse
    rfl
  obtain ⟨-, -, haccepted, hrefused, hover, -, -⟩ :=
    jobs_run_once_before_shutdown_returns 2 events s hcourse
  obtain ⟨hperm, hqueue, -⟩ := hover hfree rfl
  exact ⟨s, hcourse, haccepted, hran, hrefused, hperm, hqueue⟩

end Session

end Pool

end Strata
