import Strata.Proofs.Store.Lone

/-!
# Merges in flight

A merge counts as in flight from before it is submitted until it has landed, after its last call of
the policy. So when none is in flight and all clients have their answers, no thread is at work. As
long as no worker is told to stop or is lost, every merge is taken in by the pool.
-/

namespace Strata

namespace Pool

variable {α : Type}

/-- A pool whose workers are all there, and none of them is told to stop. -/
structure Staffed (p : Pool α) : Prop where
  some : p.workers ≠ []
  all : ∀ w ∈ p.workers, isGone w = false
  go : ∀ m ∈ p.queue, isRun m = true

variable {p q : Pool α}

theorem staffed_start (threads : Nat) : (start threads : Pool α).Staffed where
  some := by simp [start]
  all w hw := by
    rw [List.eq_of_mem_replicate hw]
    rfl
  go := by simp [start]

/-- A pool with all its workers refuses nothing. -/
theorem submit_ne_error (h : p.Staffed) (job : α) (e : Error) : p.submit job ≠ .error e := by
  obtain ⟨w, hw⟩ := List.exists_mem_of_ne_nil _ h.some
  have hopen : p.isClosed = false :=
    List.all_eq_false.2 ⟨w, hw, by simp [h.all w hw]⟩
  simp [submit, hopen]

theorem staffed_submit (h : p.Staffed) {job : α} (hsubmit : p.submit job = .ok q) :
    q.Staffed := by
  rw [submit_eq_ok hsubmit]
  refine ⟨h.some, h.all, fun m hm => ?_⟩
  rcases List.mem_append.1 hm with hm | hm
  · exact h.go m hm
  · rw [List.mem_singleton.1 hm]
    rfl

theorem staffed_setWorker (h : p.Staffed) (i : Nat) {worker : Worker α}
    (hworker : isGone worker = false) : (p.setWorker i worker).Staffed where
  some hnone := h.some (List.eq_nil_of_length_eq_zero (by
    have hlength := congrArg List.length hnone
    rwa [setWorker, List.length_set] at hlength))
  all w hw := by
    rcases List.mem_or_eq_of_mem_set hw with hw | rfl
    · exact h.all w hw
    · exact hworker
  go := h.go

theorem staffed_take (h : p.Staffed) {i : Nat} (htake : p.take i = some q) : q.Staffed := by
  unfold take at htake
  split at htake
  · rename_i job queue hworker hqueue
    obtain rfl := Option.some.inj htake
    have hrest : Staffed { p with queue } :=
      ⟨h.some, h.all, fun m hm => h.go m (hqueue ▸ List.mem_cons_of_mem _ hm)⟩
    exact staffed_setWorker hrest i rfl
  · rename_i queue hworker hqueue
    have hstop := h.go .stop (hqueue ▸ List.mem_cons_self)
    contradiction
  · contradiction

end Pool

/-- Whether a scheduling counts a merge as in flight that it has not submitted. -/
def Scheduling.flight : Scheduling → Nat
  | .submit .. => 1
  | .withdraw .. => 1
  | _ => 0

def Consultation.flight : Consultation → Nat
  | .thinking _ => 0
  | .scheduling _ phase => phase.flight

def Task.flight : Task → Nat
  | .consult k => k.flight
  | _ => 0

/-- How many merges a merge counts for, itself and the one it is about to submit. -/
def Job.flight (job : Job) : Nat :=
  match job.phase with
  | .consult k => 1 + k.flight
  | .signal => 0
  | .over => 0
  | .lost => 0
  | _ => 1

/-- How many of the merges in flight a thread accounts for. -/
def Thread.flight : Thread → Nat
  | .call task => task.flight
  | .merge job => job.flight

/-- How many merges a step has broken off, after which a thread is where it is. -/
def Thread.broken : Thread → Nat
  | .merge ⟨_, .lost⟩ => 1
  | _ => 0

/-- A call that has its answer, or a merge that has landed or was broken off. -/
inductive Thread.Done : Thread → Prop where
  | returned (answer : Outcome Unit) : Done (.call (.returned answer))
  | signal (members : List Component) : Done (.merge ⟨members, .signal⟩)
  | over (members : List Component) : Done (.merge ⟨members, .over⟩)
  | lost (members : List Component) : Done (.merge ⟨members, .lost⟩)

/-- A weight of threads that work gives them: neither a call that begins nor a thread that is done
has any. -/
structure Thread.Weighs (weight : Thread → Nat) : Prop where
  begins : ∀ {task : Task}, task.Begins → weight (.call task) = 0
  done : ∀ {thread : Thread}, thread.Done → weight thread = 0

theorem Thread.weighs_flight : Weighs flight where
  begins h := by cases h <;> rfl
  done h := by cases h <;> rfl

/-- What is left of a thread weighs what the thread does. -/
theorem Thread.Weighs.remains {weight : Thread → Nat} (h : Weighs weight) (thread : Thread) :
    (thread.remains.map weight).sum = weight thread := by
  cases thread with
  | call task => exact Nat.add_zero _
  | merge job =>
    obtain ⟨members, phase⟩ := job
    cases phase with
    | «over» => exact (h.done (.over members)).symm
    | lost => exact (h.done (.lost members)).symm
    | _ => exact Nat.add_zero _

/-- A merge has not failed, nor been broken off. -/
def Job.Phase.Fair : Job.Phase → Prop
  | .fail _ => False
  | .lost => False
  | _ => True

theorem Job.Phase.Fair.ne_lost {phase : Job.Phase} (h : phase.Fair) : phase ≠ .lost := by
  rintro rfl
  exact h

theorem Scheduling.flight_conclude (all : Bool) (answer : Except Error Bool) :
    (conclude all answer).flight = 0 := by
  unfold conclude
  split <;> rfl

namespace Store

variable {s s' t : Store} {new : List Job} {thread thread' : Thread}

theorem flight_schedules {phase phase' : Scheduling} (h : s.Schedules phase s' phase' new)
    (hcounted : phase.flight ≤ s.inFlight) :
    phase'.flight + (new.map Job.flight).sum + s.inFlight = phase.flight + s'.inFlight := by
  cases h with
  | withdraw =>
    have hone : 1 ≤ s.inFlight := hcounted
    show 0 + 0 + s.inFlight = 1 + (s.inFlight - 1)
    omega
  | enlist =>
    show 1 + 0 + s.inFlight = 0 + (s.inFlight + 1)
    omega
  | submit hpool =>
    rw [Scheduling.flight_conclude]
    rfl
  | claimNone => rw [Scheduling.flight_conclude]; rfl
  | gaveUp => rw [Scheduling.flight_conclude]; rfl
  | giveUpLost => rw [Scheduling.flight_conclude]; rfl
  | handedBack => rw [Scheduling.flight_conclude]; rfl
  | handBackLost => rw [Scheduling.flight_conclude]; rfl
  | _ => rfl

theorem flight_consults {k k' : Consultation} (h : s.Consults k s' k' new)
    (hcounted : k.flight ≤ s.inFlight) :
    k'.flight + (new.map Job.flight).sum + s.inFlight = k.flight + s'.inFlight := by
  cases h with
  | think hstep =>
    obtain ⟨tracker, metrics, rfl, -, -⟩ := Call.step_frame hstep
    rfl
  | order horder =>
    rename_i call order
    cases order <;> rfl
  | schedule hphase hstep => exact flight_schedules hstep hcounted
  | reply =>
    rename_i call answer
    obtain ⟨metrics, result, hreply⟩ := Call.reply_frame s.board call answer
    rw [hreply]
    rfl

theorem flight_of_answer? {k : Consultation} {answer : Except Error Unit}
    (h : k.answer? = some answer) : k.flight = 0 := by
  cases k with
  | thinking call => rfl
  | scheduling call phase => contradiction

theorem flight_calls {task task' : Task} (h : s.Calls task s' task' new)
    (hcounted : task.flight ≤ s.inFlight) :
    task'.flight + (new.map Job.flight).sum + s.inFlight = task.flight + s'.inFlight := by
  cases h with
  | insert htask => rcases htask with rfl | rfl <;> rfl
  | requested htask => rcases htask with rfl | rfl <;> rfl
  | consulted hanswer =>
    rename_i k answer
    have hk := flight_of_answer? hanswer
    show 0 + 0 + s.inFlight = k.flight + s.inFlight
    omega
  | consult hstep => exact flight_consults hstep hcounted
  | draining htask => rcases htask with rfl | rfl <;> rfl
  | drowse htask => rcases htask with rfl | rfl <;> rfl
  | _ => rfl

theorem flight_merges {job : Job} {phase : Job.Phase} (h : s.Merges job s' phase new)
    (hcounted : job.flight ≤ s.inFlight) :
    Job.flight { job with phase } + Thread.broken (.merge { job with phase }) +
      (new.map Job.flight).sum + s.inFlight = job.flight + s'.inFlight := by
  have hfails : ∀ {members : List Component} (f : Failure), Job.flight ⟨members, Job.phaseOf f⟩ +
      Thread.broken (.merge ⟨members, Job.phaseOf f⟩) = 1 := by
    intro members f
    cases f <;> rfl
  cases h with
  | readFails => rw [hfails]; rfl
  | buildFails => rw [hfails]; rfl
  | consulted hanswer =>
    rename_i members k answer
    have hk := flight_of_answer? hanswer
    show 1 + 0 + 0 + s.inFlight = 1 + k.flight + s.inFlight
    omega
  | consult hstep =>
    rename_i members k k'
    have hjob : 1 + k.flight ≤ s.inFlight := hcounted
    have hk := flight_consults hstep (by omega)
    show 1 + k'.flight + 0 + (new.map Job.flight).sum + s.inFlight = 1 + k.flight + s'.inFlight
    omega
  | land =>
    have hone : 1 ≤ s.inFlight := hcounted
    show 0 + 0 + 0 + s.inFlight = 1 + (s.inFlight - 1)
    omega
  | _ => rfl

/-- A step accounts for what it does to the merges in flight, but for those it breaks off. -/
theorem flight_acts (h : s.Acts thread s' thread' new) (hcounted : thread.flight ≤ s.inFlight) :
    thread'.flight + thread'.broken + (new.map Job.flight).sum + s.inFlight =
      thread.flight + s'.inFlight := by
  cases h with
  | call hcalls => exact flight_calls hcalls hcounted
  | merge hmerges => exact flight_merges hmerges hcounted

/-- How many merges all threads account for. -/
def flight (s : Store) : Nat := (s.threads.map Thread.flight).sum

/-- Every thread that accounts for a merge in flight is counted. -/
def Counts (s : Store) : Prop := s.flight ≤ s.inFlight

/-- What all threads weigh. -/
def total (weight : Thread → Nat) (s : Store) : Nat := (s.threads.map weight).sum

theorem total_of_acts {weight : Thread → Nat} (hweighs : Thread.Weighs weight)
    {others : List Thread} (hbefore : s.threads.Perm (thread :: others))
    (hafter : t.threads.Perm (thread'.remains ++ (new.map Thread.merge ++ others))) :
    t.total weight + weight thread =
      s.total weight + weight thread' + (new.map fun job => weight (.merge job)).sum := by
  have hnew : (new.map (weight ∘ Thread.merge)).sum =
      (new.map fun job => weight (.merge job)).sum := rfl
  rw [total, total, (hbefore.map weight).sum_nat, (hafter.map weight).sum_nat]
  simp only [List.map_append, List.sum_append, List.map_cons, List.sum_cons, List.map_map,
    hweighs.remains]
  omega

theorem total_of_begun {weight : Thread → Nat} (hweighs : Thread.Weighs weight)
    {begun : List Task} (hbegun : ∀ task ∈ begun, task.Begins)
    (hthreads : t.threads.Perm (begun.map Thread.call ++ s.threads)) :
    t.total weight = s.total weight := by
  have hzero : ((begun.map Thread.call).map weight).sum = 0 := by
    rw [List.sum_eq_zero_iff_forall_eq_nat, List.map_map]
    intro n hn
    obtain ⟨task, htask, rfl⟩ := List.mem_map.1 hn
    exact hweighs.begins (hbegun task htask)
  rw [total, total, (hthreads.map weight).sum_nat, List.map_append, List.sum_append, hzero,
    Nat.zero_add]

/-- A merge is broken off in a turn if its step leaves it so. -/
theorem breaks_of_acts {τ : Turn} (hacts : s.Acts thread s' thread' new)
    (hmerge : s.mergeStep? τ = thread.mergeStep? thread') :
    (s.breaks τ).length = thread'.broken := by
  rw [breaks, hmerge]
  cases hacts with
  | call => rfl
  | merge hmerges =>
    rename_i job phase
    cases phase <;> rfl

/-- A turn that breaks no merge off brings none to where it is lost. -/
theorem ne_lost_of_breaks {τ : Turn} (hkept : s.breaks τ = []) (job : Job) (phase : Job.Phase)
    (h : s.mergeStep? τ = some (job, phase)) : phase ≠ .lost := by
  rintro rfl
  rw [breaks, h] at hkept
  contradiction

/-- A turn accounts for what it does to the merges in flight, but for the one it may break off. -/
theorem flight_turn (h : s.Counts) {τ : Turn} (hproper : τ.Proper) (hturn : s.turn τ = some t) :
    t.flight + (s.breaks τ).length + s.inFlight = s.flight + t.inFlight := by
  cases passes_of_turn hturn with
  | acts hacts hbefore hafter hsituation hflight hmerge horders =>
    rename_i thread thread' s' new others
    have htotal := total_of_acts Thread.weighs_flight hbefore hafter
    have hthread : thread.flight ≤ s.flight := by
      rw [flight, (hbefore.map Thread.flight).sum_nat]
      exact Nat.le_add_right _ _
    have hstep := flight_acts hacts (Nat.le_trans hthread h)
    have hbroken := breaks_of_acts hacts hmerge
    have hs : s.total Thread.flight = s.flight := rfl
    have ht : t.total Thread.flight = t.flight := rfl
    have hnew : (new.map fun job => Thread.flight (.merge job)).sum = (new.map Job.flight).sum :=
      rfl
    omega
  | begin hcall hthreads hsituation hflight =>
    subst hcall
    rename_i task
    have hbroken : s.breaks (.action (.call task)) = [] := by
      rw [breaks, mergeStep?_eq_none rfl]
      rfl
    have htotal : t.flight = s.flight :=
      total_of_begun Thread.weighs_flight (List.forall_mem_singleton.2 hproper) hthreads
    rw [hbroken, htotal, hflight]
    rfl
  | stand hthreads hsituation hflight hmerge horders =>
    have hbroken : s.breaks τ = [] := by
      rw [breaks, hmerge]
      rfl
    have htotal : t.flight = s.flight :=
      total_of_begun Thread.weighs_flight (List.forall_mem_nil _) hthreads
    rw [hbroken, htotal, hflight]
    rfl

/-- The merges in flight are counted at all times. -/
theorem Counts.turn (h : s.Counts) {τ : Turn} (hproper : τ.Proper) (hturn : s.turn τ = some t) :
    t.Counts := by
  have hflight := flight_turn h hproper hturn
  rw [Counts] at h ⊢
  omega

/-- All clients have their answers, and no merge is in flight. -/
structure Rests (s : Store) : Prop where
  answered : ∀ task ∈ s.clients, task.answer?.isSome
  landed : s.inFlight = 0

/-- At rest every thread is done. -/
theorem Rests.done (h : s.Rests) (hcounts : s.Counts) : ∀ thread ∈ s.threads, thread.Done := by
  have hzero : (s.threads.map Thread.flight).sum = 0 :=
    Nat.le_zero.1 (Nat.le_trans hcounts (Nat.le_of_eq h.landed))
  have hnone : ∀ thread ∈ s.threads, thread.flight = 0 := fun thread hthread =>
    List.sum_eq_zero_iff_forall_eq_nat.1 hzero _ (List.mem_map_of_mem hthread)
  intro thread hthread
  cases thread with
  | call task =>
    have htask : task ∈ s.clients := by
      rcases List.mem_append.1 hthread with hmem | hmem
      · obtain ⟨other, hother, heq⟩ := List.mem_map.1 hmem
        exact Thread.call.inj heq ▸ hother
      · obtain ⟨job, -, heq⟩ := List.mem_map.1 hmem
        contradiction
    have hanswered := h.answered task htask
    cases task with
    | returned answer => exact .returned answer
    | _ => simp [Task.answer?] at hanswered
  | merge job =>
    have hflight : job.flight = 0 := hnone _ hthread
    obtain ⟨members, phase⟩ := job
    cases phase with
    | signal => exact .signal members
    | «over» => exact .over members
    | lost => exact .lost members
    | consult k => exact absurd hflight (by simp [Job.flight])
    | _ => exact absurd hflight Nat.one_ne_zero

/-- At rest no thread is at work. -/
theorem Rests.idle (h : s.Rests) (hcounts : s.Counts) :
    ∀ thread ∈ s.threads, thread.Idle := by
  intro thread hthread
  cases h.done hcounts thread hthread <;> trivial

/-- At rest no thread weighs anything. -/
theorem Rests.total_eq_zero (h : s.Rests) (hcounts : s.Counts) {weight : Thread → Nat}
    (hweighs : Thread.Weighs weight) : s.total weight = 0 := by
  rw [total, List.sum_eq_zero_iff_forall_eq_nat]
  intro n hn
  obtain ⟨thread, hthread, rfl⟩ := List.mem_map.1 hn
  exact hweighs.done (h.done hcounts thread hthread)

/-- Where no thread takes a step, a worker takes what is queued at most. -/
theorem staffed_of_quiet (h : s.pool.Staffed) {τ : Turn} (hgo : τ ≠ .action .shutdown)
    (hclient : τ.client? = none) (hworker : τ.worker? = none) (hturn : s.turn τ = some t) :
    t.pool.Staffed := by
  cases τ with
  | action a =>
    cases a with
    | call task =>
      obtain rfl := Option.some.inj hturn
      exact h
    | take i =>
      obtain ⟨pool, htake, rfl⟩ := Option.map_eq_some_iff.1 hturn
      exact Pool.staffed_take h htake
    | reap serial =>
      simp only [turn, step, reap, bind, Option.bind_eq_some_iff, pure, Option.some.injEq] at hturn
      obtain ⟨c, -, name, -, rfl⟩ := hturn
      exact h
    | shutdown => exact absurd rfl hgo
    | client i => simp [Turn.client?] at hclient
    | work i => simp [Turn.worker?] at hworker
  | files d =>
    obtain rfl := Option.some.inj hturn
    exact h
  | failMerge i f => simp [Turn.worker?] at hworker
  | failFlush i f => simp [Turn.client?] at hclient

/-- While nobody shuts the pool down and no merge is broken off, all workers stay. -/
theorem staffed_turn (h : s.pool.Staffed) {τ : Turn} (hgo : τ ≠ .action .shutdown)
    (hkept : ∀ job phase, s.mergeStep? τ = some (job, phase) → phase ≠ .lost)
    (hturn : s.turn τ = some t) : t.pool.Staffed := by
  have hsubmitted : ∀ {s' : Store} {new : List Job}, s.Submitted s' new → s'.pool.Staffed := by
    rintro s' new ⟨-, ⟨-, hpool⟩ | ⟨members, -, hsubmit⟩⟩
    · rwa [hpool]
    · exact Pool.staffed_submit h hsubmit
  cases takes_of_turn hturn with
  | client hclient hworker htask hcalls hclients hbefore hafter =>
    have hstaffed := hsubmitted (submitted_calls hcalls)
    exact hstaffed
  | work hworker hclient hjob hmerges hworkers hclients hbefore hafter =>
    rename_i i job phase s' new others
    refine Pool.staffed_setWorker (hsubmitted (submitted_merges hmerges)) i ?_
    have hphase := hkept _ _ (mergeStep?_eq hturn hworker hjob hworkers)
    cases phase with
    | lost => exact absurd rfl hphase
    | _ => rfl
  | begin => exact h
  | idle hclient hworker hjobs hqueue => exact staffed_of_quiet h hgo hclient hworker hturn

end Store

end Strata
