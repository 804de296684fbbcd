import Mathlib.Data.List.Perm.Basic
import Strata.Proofs.Store.Stakes

/-!
# No component in two merges

Clients and merges call the policy side by side, and every call may schedule a merge of components
that another is about to claim. Each claim is one step that only one thread can take, so however the
threads interleave, a component that is merging is in one hand: that of a merge that has neither
succeeded nor handed it back, that of a scheduling under way, or that of a merge that has failed too
often and is parked. A scheduling that comes to nothing has handed back all it had claimed.
-/

namespace Strata

/-- Who calls the policy: a client, or the merge a worker is at. -/
inductive Actor where
  | client (i : Nat)
  | worker (i : Nat)
deriving DecidableEq

/-- Whose turn it is. -/
def Turn.actor? : Turn → Option Actor
  | .action (.client i) => some (.client i)
  | .action (.work i) => some (.worker i)
  | .failFlush i _ => some (.client i)
  | .failMerge i _ => some (.worker i)
  | _ => none

theorem Turn.actor?_of_client? {τ : Turn} {i : Nat} (h : τ.client? = some i) :
    τ.actor? = some (.client i) := by
  unfold client? at h
  split at h
  · obtain rfl := Option.some.inj h
    rfl
  · obtain rfl := Option.some.inj h
    rfl
  · contradiction

theorem Turn.actor?_of_worker? {τ : Turn} {i : Nat} (h : τ.worker? = some i) :
    τ.actor? = some (.worker i) := by
  unfold worker? at h
  split at h
  · obtain rfl := Option.some.inj h
    rfl
  · obtain rfl := Option.some.inj h
    rfl
  · contradiction

theorem Turn.actor?_eq_none {τ : Turn} (hclient : τ.client? = none) (hworker : τ.worker? = none) :
    τ.actor? = none := by
  unfold actor?
  split <;> simp_all [client?, worker?]

theorem Scheduling.conclude_ok_true (all : Bool) :
    conclude all (.ok true) = .answered (.ok true) := by
  cases all <;> rfl

theorem Scheduling.eq_answered {phase : Scheduling} {answer : Except Error Bool}
    (h : phase.answer? = some answer) : phase = .answered answer := by
  cases phase with
  | answered given =>
    obtain rfl := Option.some.inj h
    rfl
  | _ => simp [answer?] at h

/-- The scheduling that a call of the policy carries out. -/
def Consultation.scheduling? : Consultation → Option Scheduling
  | .scheduling _ phase => some phase
  | .thinking _ => none

/-- The scheduling under way in the call of a client. -/
def Task.scheduling? : Task → Option Scheduling
  | .consult k => k.scheduling?
  | _ => none

/-- The scheduling under way at the end of a merge. -/
def Job.scheduling? (job : Job) : Option Scheduling :=
  match job.phase with
  | .consult k => k.scheduling?
  | _ => none

namespace Store

/-- The scheduling that an actor has under way. -/
def scheduling? (s : Store) : Actor → Option Scheduling
  | .client i => (s.clients[i]?).bind Task.scheduling?
  | .worker i => (s.pool.jobOf? i).bind Job.scheduling?

/-- The state of a component, by its count. -/
def stateOf (s : Store) (n : Nat) : State := s.board.states.state n

/-- How often an actor claims a component in a turn. -/
def claimings (p : Actor) (n : Nat) (s : Store) (τ : Turn) : Nat :=
  if τ.actor? = some p ∧ s.stateOf n = .readable ∧
    (s.turn τ).map (·.stateOf n) = some .merging then 1 else 0

/-- How often an actor hands a component back in a turn. -/
def releasings (p : Actor) (n : Nat) (s : Store) (τ : Turn) : Nat :=
  if τ.actor? = some p ∧ s.stateOf n = .merging ∧
    (s.turn τ).map (·.stateOf n) = some .readable then 1 else 0

/-- How many merges an actor submits in a turn. -/
def submittings (p : Actor) (s : Store) (τ : Turn) : Nat :=
  if τ.actor? = some p then
    ((s.turn τ).map fun t =>
      t.pool.queue.countP Pool.isRun - s.pool.queue.countP Pool.isRun).getD 0
  else 0

/-- Whether an actor has a scheduling under way at all moments of a course. -/
def schedulesThroughout (p : Actor) : Store → List Turn → Bool
  | s, [] => (s.scheduling? p).isSome
  | s, τ :: rest =>
    (s.scheduling? p).isSome &&
      ((s.turn τ).map fun t => schedulesThroughout p t rest).getD true

variable {s s' t u : Store} {p : Actor} {phase phase' : Scheduling} {τ : Turn} {turns : List Turn}

theorem schedulesThroughout_cons (hturn : s.turn τ = some t)
    (h : schedulesThroughout p s (τ :: turns)) : schedulesThroughout p t turns := by
  rw [schedulesThroughout, hturn, Bool.and_eq_true] at h
  exact h.2

theorem exists_scheduling? (h : schedulesThroughout p s turns) :
    ∃ phase, s.scheduling? p = some phase := by
  cases turns with
  | nil => exact Option.isSome_iff_exists.1 h
  | cons τ rest => exact Option.isSome_iff_exists.1 (Bool.and_eq_true_iff.1 h).1

/-- A worker that another takes the place of is at the job of that one. -/
theorem jobOf?_setWorker_self {pool : Pool Job} {i : Nat} {job : Job}
    (h : pool.jobOf? i = some job) (w : Worker Job) :
    (pool.setWorker i w).jobOf? i = w.job? := by
  have hi := (List.getElem?_eq_some_iff.1 (Pool.jobOf?_eq_some_iff.1 h)).1
  rw [Pool.jobOf?, Pool.setWorker, List.getElem?_set_self hi]
  cases w <;> rfl

theorem jobOf?_setWorker_ne {pool : Pool Job} {i j : Nat} (hij : i ≠ j) (w : Worker Job) :
    (pool.setWorker i w).jobOf? j = pool.jobOf? j := by
  rw [Pool.jobOf?, Pool.setWorker, List.getElem?_set_ne hij]
  rfl

theorem jobOf?_congr {pool pool' : Pool Job} (h : pool'.workers = pool.workers) (i : Nat) :
    pool'.jobOf? i = pool.jobOf? i := by
  rw [Pool.jobOf?, h]
  rfl

/-- A step of a call of the policy that is carrying out an order, and goes on doing so. -/
theorem schedules_of_consults {k k' : Consultation} {new : List Job}
    (hstep : s.Consults k s' k' new) (hk : k.scheduling? = some phase)
    (hk' : k'.scheduling? = some phase') : s.Schedules phase s' phase' new := by
  cases hstep with
  | think hcall => simp [Consultation.scheduling?] at hk
  | order horder => simp [Consultation.scheduling?] at hk
  | schedule hphase hstep =>
    obtain rfl := Option.some.inj hk
    obtain rfl := Option.some.inj hk'
    exact hstep
  | reply => simp [Consultation.scheduling?] at hk'

theorem schedules_of_calls {task task' : Task} {new : List Job}
    (hcalls : s.Calls task s' task' new) (htask : task.scheduling? = some phase)
    (htask' : task'.scheduling? = some phase') : s.Schedules phase s' phase' new := by
  cases hcalls with
  | consult hstep => exact schedules_of_consults hstep htask htask'
  | consulted hanswer => simp [Task.scheduling?] at htask'
  | _ => simp [Task.scheduling?] at htask

theorem schedules_of_merges {job : Job} {after : Job.Phase} {new : List Job}
    (hmerges : s.Merges job s' after new) (hjob : job.scheduling? = some phase)
    (hjob' : { job with phase := after }.scheduling? = some phase') :
    s.Schedules phase s' phase' new := by
  cases hmerges with
  | consult hstep => exact schedules_of_consults hstep hjob hjob'
  | consulted hanswer => simp [Job.scheduling?] at hjob'
  | _ => simp [Job.scheduling?] at hjob

/-- In a turn of its own, an actor takes a step of the scheduling it has under way; in any other,
the scheduling stands still. -/
theorem scheduling_turn (hturn : s.turn τ = some t) (hphase : s.scheduling? p = some phase)
    (hphase' : t.scheduling? p = some phase') :
    (τ.actor? = some p ∧ ∃ s' new, s.Schedules phase s' phase' new ∧ t.board = s'.board ∧
      t.pool.queue = s'.pool.queue) ∨ τ.actor? ≠ some p ∧ phase' = phase := by
  have hstill : ∀ {q : Actor}, τ.actor? = some q → q ≠ p → t.scheduling? p = s.scheduling? p →
      (τ.actor? = some p ∧ ∃ s' new, s.Schedules phase s' phase' new ∧ t.board = s'.board ∧
        t.pool.queue = s'.pool.queue) ∨ τ.actor? ≠ some p ∧ phase' = phase := by
    intro q hactor hne hsame
    refine .inr ⟨?_, ?_⟩
    · rw [hactor]
      exact fun heq => hne (Option.some.inj heq)
    · rw [hsame, hphase] at hphase'
      exact (Option.some.inj hphase').symm
  cases takes_of_turn hturn with
  | client hclient hworker htask hcalls hclients hbefore hafter =>
    rename_i i task task' s' new others
    have hactor := Turn.actor?_of_client? hclient
    have hi := (List.getElem?_eq_some_iff.1 htask).1
    by_cases hp : p = .client i
    · subst hp
      refine .inl ⟨hactor, s', new, ?_, rfl, rfl⟩
      simp only [scheduling?, htask, Option.bind_some] at hphase
      simp only [scheduling?, hclients, List.getElem?_set_self hi, Option.bind_some] at hphase'
      exact schedules_of_calls hcalls hphase hphase'
    · refine hstill hactor (Ne.symm hp) ?_
      cases p with
      | client j =>
        have hij : i ≠ j := fun heq => hp (heq ▸ rfl)
        simp only [scheduling?, hclients, List.getElem?_set_ne hij]
      | worker j =>
        have hworkers : s'.pool.workers = s.pool.workers := by
          rcases (submitted_calls hcalls).2 with ⟨-, hpool⟩ | ⟨members, -, hsubmit⟩
          · rw [hpool]
          · exact (Pool.jobs_submit hsubmit).1
        simp only [scheduling?, jobOf?_congr hworkers]
  | work hworker hclient hjob hmerges hworkers hclients hbefore hafter =>
    rename_i i job after s' new others
    have hactor := Turn.actor?_of_worker? hworker
    have hjob' : s'.pool.jobOf? i = some job := (jobOf?_congr hworkers i).trans hjob
    by_cases hp : p = .worker i
    · subst hp
      refine .inl ⟨hactor, s', new, ?_, rfl, rfl⟩
      simp only [scheduling?, hjob, Option.bind_some] at hphase
      simp only [scheduling?, jobOf?_setWorker_self hjob'] at hphase'
      obtain ⟨left, hleft, hscheduling⟩ := Option.bind_eq_some_iff.1 hphase'
      have hsame : left = { job with phase := after } := by
        obtain ⟨members, before⟩ := job
        cases after <;> first | exact (Option.some.inj hleft).symm | simp [workerOf, Job.isOver,
          Job.isLost, Worker.job?] at hleft
      exact schedules_of_merges hmerges hphase (hsame ▸ hscheduling)
    · refine hstill hactor (Ne.symm hp) ?_
      cases p with
      | client j => simp only [scheduling?, hclients]
      | worker j =>
        have hij : i ≠ j := fun heq => hp (heq ▸ rfl)
        simp only [scheduling?, jobOf?_setWorker_ne hij, jobOf?_congr hworkers]
  | begin =>
    refine .inr ⟨by simp [Turn.actor?], ?_⟩
    cases p with
    | client j =>
      obtain ⟨task, htask, -⟩ := Option.bind_eq_some_iff.1 hphase
      have hj := (List.getElem?_eq_some_iff.1 htask).1
      simp only [scheduling?, List.getElem?_append_left hj] at hphase'
      exact (Option.some.inj (hphase.symm.trans hphase')).symm
    | worker j => exact (Option.some.inj (hphase.symm.trans hphase')).symm
  | idle hclient hworker hjobs hqueue =>
    refine .inr ⟨by simp [Turn.actor?_eq_none hclient hworker], ?_⟩
    cases p with
    | client j => exact (Option.some.inj (hphase.symm.trans hphase')).symm
    | worker j =>
      simp only [scheduling?] at hphase hphase'
      rcases hqueue j with hnone | hsame
      · simp [hnone] at hphase
      · rw [hsame, hphase] at hphase'
        exact (Option.some.inj hphase').symm

theorem stateOf_moved (c : Component) (m : Move) (n : Nat) :
    (s.moved c m).stateOf n = if n = c.serial then m.target else s.stateOf n :=
  Lifecycle.state_set ..

theorem claimed_stake (phase : Scheduling) : phase.stake.claimed = phase.party.held := by
  cases phase <;> rfl

/-- What a scheduling under way has claimed is merging. -/
theorem merging_of_held {aside : List (List Component)} (h : s.Balanced aside)
    (hphase : s.scheduling? p = some phase) : ∀ c ∈ phase.party.held, s.state c = .merging := by
  have hthread : ∃ thread ∈ s.threads, thread.stake = phase.stake := by
    have hstake : ∀ {k : Consultation}, k.scheduling? = some phase → k.stake = phase.stake := by
      intro k hk
      cases k with
      | thinking call => simp [Consultation.scheduling?] at hk
      | scheduling call before =>
        obtain rfl := Option.some.inj hk
        rfl
    cases p with
    | client i =>
      obtain ⟨task, htask, hscheduling⟩ := Option.bind_eq_some_iff.1 hphase
      refine ⟨.call task, List.mem_append_left _ (List.mem_map_of_mem
        (List.mem_of_getElem? htask)), ?_⟩
      cases task with
      | consult k => exact hstake hscheduling
      | _ => simp [Task.scheduling?] at hscheduling
    | worker i =>
      obtain ⟨job, hjob, hscheduling⟩ := Option.bind_eq_some_iff.1 hphase
      obtain ⟨others, hothers⟩ := Pool.exists_jobs_perm hjob
      have hmem : job ∈ s.pool.jobs := hothers.mem_iff.2 List.mem_cons_self
      refine ⟨.merge job, List.mem_append_right _ (List.mem_map_of_mem hmem), ?_⟩
      obtain ⟨members, before⟩ := job
      cases before with
      | consult k => exact hstake hscheduling
      | _ => simp [Job.scheduling?] at hscheduling
  obtain ⟨thread, hmem, hstake⟩ := hthread
  intro c hc
  refine (h.admits _ (List.mem_map_of_mem hmem)).claimed c ?_
  rwa [hstake, claimed_stake]

/-- How often a scheduling holds a component. -/
def holds (phase : Scheduling) (n : Nat) : Nat := (phase.party.held.map Component.serial).count n

@[simp] theorem holds_conclude (all : Bool) (answer : Except Error Bool) (n : Nat) :
    holds (.conclude all answer) n = 0 := by
  rw [holds, Scheduling.party_conclude]
  rfl

/-- The account of a step of scheduling: what it holds more it has claimed, what it holds less it
has handed back. -/
theorem holds_schedules {new : List Job} (h : s.Schedules phase s' phase' new)
    (hheld : ∀ c ∈ phase.party.held, s.state c = .merging) (hanswer : phase' ≠ .answered (.ok true))
    (n : Nat) :
    holds phase' n + (if s.stateOf n = .merging ∧ s'.stateOf n = .readable then 1 else 0) =
      holds phase n + (if s.stateOf n = .readable ∧ s'.stateOf n = .merging then 1 else 0) ∧
    s'.pool = s.pool := by
  have hstill : ∀ {phase' : Scheduling} {s' : Store}, s'.stateOf n = s.stateOf n →
      holds phase' n = holds phase n →
      holds phase' n + (if s.stateOf n = .merging ∧ s'.stateOf n = .readable then 1 else 0) =
        holds phase n + (if s.stateOf n = .readable ∧ s'.stateOf n = .merging then 1 else 0) := by
    intro phase' s' hstate hsame
    rw [hstate, hsame]
    cases s.stateOf n <;> simp
  have hrelease : ∀ {before after : Scheduling} {c : Component},
      before.party.held = c :: after.party.held → s.state c = .merging →
      holds after n + (if s.stateOf n = .merging ∧ (s.moved c .release).stateOf n = .readable
        then 1 else 0) =
      holds before n + (if s.stateOf n = .readable ∧ (s.moved c .release).stateOf n = .merging
        then 1 else 0) := by
    intro before after c hbefore hstate
    rw [stateOf_moved, holds, holds, hbefore, List.map_cons, List.count_cons]
    by_cases hn : n = c.serial
    · subst hn
      have hmerging : s.stateOf c.serial = .merging := hstate
      simp [hmerging, Move.target]
    · have hne : (c.serial == n) = false := by simpa using Ne.symm hn
      rw [if_neg hn, hne]
      cases s.stateOf n <;> simp
  cases h with
  | clear => exact ⟨hstill rfl rfl, rfl⟩
  | gather => exact ⟨hstill rfl rfl, rfl⟩
  | claimNone => exact ⟨hstill rfl (holds_conclude ..), rfl⟩
  | claimedAll hmembers => exact ⟨hstill rfl rfl, rfl⟩
  | claim hstate =>
    rename_i all claimed rest c
    refine ⟨?_, rfl⟩
    rw [stateOf_moved]
    simp only [holds, Scheduling.party, List.map_append, List.map_cons, List.map_nil,
      List.count_append, List.count_singleton]
    by_cases hn : n = c.serial
    · subst hn
      have hreadable : s.stateOf c.serial = .readable := hstate
      simp [hreadable, Move.target]
    · have hne : (c.serial == n) = false := by simpa using Ne.symm hn
      rw [if_neg hn, hne]
      cases s.stateOf n <;> simp
  | claimLost hstate => exact ⟨hstill rfl rfl, rfl⟩
  | gaveUp => exact ⟨hstill rfl (holds_conclude ..), rfl⟩
  | giveUp hstate => exact ⟨hrelease rfl hstate, rfl⟩
  | giveUpLost hstate => exact absurd (hheld _ List.mem_cons_self) hstate
  | enlist => exact ⟨hstill rfl rfl, rfl⟩
  | submit hpool =>
    exact absurd (Scheduling.conclude_ok_true _) hanswer
  | refuse => exact ⟨hstill rfl rfl, rfl⟩
  | withdraw => exact ⟨hstill rfl rfl, rfl⟩
  | handedBack => exact ⟨hstill rfl (holds_conclude ..), rfl⟩
  | handBack hstate => exact ⟨hrelease rfl hstate, rfl⟩
  | handBackLost hstate => exact absurd (hheld _ List.mem_cons_self) hstate
  | restore => exact ⟨hstill rfl rfl, rfl⟩

/-- A scheduling that has come to an answer keeps to it. -/
theorem answered_course {answer : Except Error Bool}
    (hphase : s.scheduling? p = some (.answered answer))
    (hunder : schedulesThroughout p s turns) (hcourse : s.course turns = some t)
    (hphase' : t.scheduling? p = some phase') : phase' = .answered answer := by
  induction turns generalizing s with
  | nil =>
    obtain rfl := Option.some.inj hcourse
    exact (Option.some.inj (hphase.symm.trans hphase')).symm
  | cons τ rest ih =>
    obtain ⟨u, hturn, hrest⟩ := Option.bind_eq_some_iff.1 hcourse
    obtain ⟨between, hbetween⟩ := exists_scheduling? (schedulesThroughout_cons hturn hunder)
    rcases scheduling_turn hturn hphase hbetween with ⟨-, s', new, hstep, -, -⟩ | ⟨-, rfl⟩
    · cases hstep
    · exact ih hbetween (schedulesThroughout_cons hturn hunder) hrest

/-- The account of a scheduling that submits nothing. -/
theorem sum_claimings {aside : List (List Component)} {answer : Except Error Bool}
    (hproper : ∀ τ ∈ turns, τ.Proper) (h : s.Balanced aside)
    (hphase : s.scheduling? p = some phase) (hunder : schedulesThroughout p s turns)
    (hcourse : s.course turns = some t) (hphase' : t.scheduling? p = some (.answered answer))
    (hanswer : answer ≠ .ok true) (n : Nat) :
    holds phase n + s.sum (claimings p n) turns = s.sum (releasings p n) turns ∧
      s.sum (submittings p) turns = 0 := by
  induction turns generalizing s phase aside with
  | nil =>
    obtain rfl := Option.some.inj hcourse
    obtain rfl := Option.some.inj (hphase.symm.trans hphase')
    exact ⟨rfl, rfl⟩
  | cons τ rest ih =>
    obtain ⟨u, hturn, hrest⟩ := Option.bind_eq_some_iff.1 hcourse
    rw [List.forall_mem_cons] at hproper
    have hunder' := schedulesThroughout_cons hturn hunder
    obtain ⟨between, hbetween⟩ := exists_scheduling? hunder'
    obtain ⟨haccount, hnothing⟩ :=
      ih hproper.2 (balanced_turn hproper.1 h hturn) hbetween hunder' hrest
    rw [sum_cons _ hturn, sum_cons _ hturn, sum_cons _ hturn, hnothing]
    rcases scheduling_turn hturn hphase hbetween with
      ⟨hactor, s', new, hstep, hboard, hqueue⟩ | ⟨hactor, rfl⟩
    · have hkeeps : between ≠ .answered (.ok true) := by
        rintro rfl
        have hend := answered_course hbetween hunder' hrest hphase'
        exact hanswer (Scheduling.answered.inj hend)
      obtain ⟨hstate, hpool⟩ := holds_schedules hstep (merging_of_held h hphase) hkeeps n
      have hsame : u.stateOf n = s'.stateOf n := by rw [stateOf, stateOf, hboard]
      simp only [claimings, releasings, submittings, hactor, hturn, hsame, hqueue, hpool, true_and,
        Option.map_some, Option.some.injEq, Option.getD_some, if_true, Nat.sub_self, Nat.add_zero]
      exact ⟨by omega, trivial⟩
    · simp only [claimings, releasings, submittings, hactor, false_and, if_false, Nat.zero_add,
        Nat.add_zero]
      exact ⟨haccount, trivial⟩

/-- The counts of components, list by list. -/
def serials (css : List (List Component)) : List (List Nat) := css.map (·.map Component.serial)

/-- The members of merges that are not finished: those that are queued or that workers are at, and
those that were broken off. -/
def merging (s t : Store) (turns : List Turn) : List (List Nat) :=
  serials (t.pool.jobs.map Job.engaged ++ s.trail breaks turns)

/-- What has been claimed by schedulings under way. -/
def claiming (t : Store) : List (List Nat) :=
  serials (t.clients.map Task.claims ++ t.pool.jobs.map Job.claims)

/-- The members of merges that failed too often. -/
def parked (s : Store) (turns : List Turn) : List (List Nat) := serials (s.trail parks turns)

/-- All hands that components can be in. -/
def hands (s t : Store) (turns : List Turn) : List (List Nat) :=
  s.merging t turns ++ t.claiming ++ s.parked turns

/-- What is in some hand is what threads have at stake, and what was set aside. -/
theorem flatten_hands (s t : Store) (turns : List Turn) :
    (s.hands t turns).flatten.Perm
      (Ledger.owned (t.threads.map Thread.stake)
        ((s.trail breaks turns ++ s.trail parks turns).flatten.map Component.serial)) := by
  have hclients : ((t.clients.map Thread.call).map Thread.stake).flatMap Stake.serials =
      (serials (t.clients.map Task.claims)).flatten := by
    simp only [serials, List.flatMap_map, List.map_map, ← List.flatMap_def]
    exact List.flatMap_congr fun task _ => congrArg (List.map _) task.owned_stake
  have hjobs : (((t.pool.jobs.map Thread.merge).map Thread.stake).flatMap Stake.serials).Perm
      ((serials (t.pool.jobs.map Job.engaged)).flatten ++
        (serials (t.pool.jobs.map Job.claims)).flatten) := by
    simp only [serials, List.flatMap_map, List.map_map, ← List.flatMap_def]
    refine List.Perm.trans ?_ (List.flatMap_append_perm ..).symm
    refine List.Perm.of_eq (List.flatMap_congr fun job _ => ?_)
    exact (congrArg (List.map _) job.owned_stake).trans List.map_append
  have hsplit : ∀ first second : List (List Component),
      serials (first ++ second) = serials first ++ serials second := fun _ _ => List.map_append
  have hflat : ∀ css : List (List Component),
      css.flatten.map Component.serial = (serials css).flatten := fun _ => List.map_flatten
  rw [Ledger.owned, threads, List.map_append, List.flatMap_append, hclients, hflat, hsplit,
    hands, merging, claiming, parked, hsplit, hsplit]
  refine List.Perm.trans ?_ ((hjobs.symm.append_left _).append_right _)
  simp only [List.flatten_append]
  rw [List.perm_iff_count]
  intro n
  simp only [List.count_append]
  omega

end Store

/-- Of lists without repetitions between them, one has a member. -/
theorem countP_of_nodup_flatten {xss : List (List Nat)} (h : xss.flatten.Nodup) (n : Nat) :
    xss.countP (n ∈ ·) = if n ∈ xss.flatten then 1 else 0 := by
  induction xss with
  | nil => rfl
  | cons xs rest ih =>
    rw [List.flatten_cons, List.nodup_append] at h
    rw [List.countP_cons, ih h.2.1, List.flatten_cons]
    by_cases hfirst : n ∈ xs
    · have hrest : n ∉ rest.flatten := fun hmem => h.2.2 n hfirst n hmem rfl
      simp [hfirst, hrest]
    · simp [hfirst]

namespace Store

variable {s t : Store} {turns : List Turn}

/-- However threads interleave and whatever fails, a component listed is readable or merging, and
one that is merging is in one hand: an unfinished merge, a scheduling, or a parked merge. A
scheduling that is not answered by success has handed all members back. -/
theorem merging_in_one_hand (hopen : s.Opened) (hproper : ∀ τ ∈ turns, τ.Proper)
    (hcourse : s.course turns = some t) :
    (∀ c ∈ t.board.roster.newestFirst, t.state c = .readable ∨ t.state c = .merging) ∧
    (∀ n, t.stateOf n = .merging → (s.hands t turns).countP (n ∈ ·) = 1) ∧
    (∀ n, t.stateOf n = .readable → (s.hands t turns).countP (n ∈ ·) = 0) ∧
    (s.merging t turns).Pairwise List.Disjoint ∧
    (∀ p order answer more u, (∀ τ ∈ more, τ.Proper) →
      t.scheduling? p = some (.ofOrder order) → schedulesThroughout p t more →
      t.course more = some u → u.scheduling? p = some (.answered answer) → answer ≠ .ok true →
      (∀ n, t.sum (claimings p n) more = t.sum (releasings p n) more) ∧
        t.sum (submittings p) more = 0) := by
  have hbalanced : t.Balanced (s.trail breaks turns ++ s.trail parks turns) :=
    balanced_course hproper (balanced_of_opened hopen) hcourse
  have hperm := flatten_hands s t turns
  have honce : (s.hands t turns).flatten.Nodup := hperm.nodup_iff.2 hbalanced.once
  refine ⟨fun c hc => ?_, fun n hn => ?_, fun n hn => ?_, ?_, ?_⟩
  · obtain ⟨id, hget⟩ := Roster.exists_get?_of_mem hc
    have hliving : t.state c ≠ .inactive := hbalanced.living id c hget
    have hunwritable : t.state c ≠ .writable := hbalanced.unwritable c.serial
    cases hstate : t.state c with
    | readable => exact .inl rfl
    | merging => exact .inr rfl
    | inactive => exact absurd hstate hliving
    | writable => exact absurd hstate hunwritable
  · rw [countP_of_nodup_flatten honce, if_pos (hperm.mem_iff.2 (hbalanced.held n hn))]
  · rw [countP_of_nodup_flatten honce, if_neg (mt hperm.mem_iff.1 (hbalanced.free n hn))]
  · have hpairwise := (List.nodup_flatten.1 honce).2
    rw [hands, List.append_assoc] at hpairwise
    exact (List.pairwise_append.1 hpairwise).1
  · intro p order answer more u hmore hphase hunder hu hphase' hanswer
    have haccount := sum_claimings hmore hbalanced hphase hunder hu hphase' hanswer
    have hnothing : ∀ n, holds (.ofOrder order) n = 0 := by
      intro n
      cases order <;> rfl
    refine ⟨fun n => ?_, (haccount 0).2⟩
    have hn := (haccount n).1
    rwa [hnothing, Nat.zero_add] at hn

/-- Of two components, a client claims both for a merge of all, which is refused since no worker is
left: both are handed back. -/
theorem refused_merge_hands_back :
    let small (stamp : Nat) : Component :=
      { serial := stamp, range := .single stamp, size := 80 }
    let turns : List Turn := .action (.call .request) ::
      List.replicate 8 (.action (.client 0)) ++ [.action .shutdown, .action (.take 0)]
    let more : List Turn := List.replicate 12 (.action (.client 0))
    ∃ s t u, ofComponents {} (.all 2) (.plain [.varying]) {} [small 1, small 0] = .ok s ∧
      s.course turns = some t ∧ t.course more = some u ∧
      u.scheduling? (.client 0) = some (.answered (.error (.refusal .workersGone))) ∧
      (∀ n, t.sum (claimings (.client 0) n) more = t.sum (releasings (.client 0) n) more) ∧
      t.sum (releasings (.client 0) 1) more = 1 ∧ t.sum (submittings (.client 0)) more = 0 := by
  intro small turns more
  obtain ⟨s, hopen, hstart, hmiddle, hend⟩ : ∃ s,
      ofComponents {} (.all 2) (.plain [.varying]) {} [small 1, small 0] = .ok s ∧
      (s.course turns).bind (·.scheduling? (.client 0)) = some (.ofOrder .everything) ∧
      (s.course turns).map (fun t => (schedulesThroughout (.client 0) t more,
        t.sum (releasings (.client 0) 1) more)) = some (true, 1) ∧
      (s.course (turns ++ more)).bind (fun u =>
        (u.scheduling? (.client 0)).bind Scheduling.answer?) =
        some (.error (.refusal .workersGone)) :=
    ⟨_, rfl, rfl, by decide +kernel, by decide +kernel⟩
  obtain ⟨t, hturns, hstart⟩ := Option.bind_eq_some_iff.1 hstart
  rw [hturns, Option.map_some, Option.some.injEq, Prod.mk.injEq] at hmiddle
  rw [course_append, hturns, Option.bind_some] at hend
  obtain ⟨u, hmore, hend⟩ := Option.bind_eq_some_iff.1 hend
  obtain ⟨phase, hphase, hanswer⟩ := Option.bind_eq_some_iff.1 hend
  obtain rfl := Scheduling.eq_answered hanswer
  have hopened : s.Opened := by
    refine ⟨_, _, _, _, _, fun c hc => ?_, hopen⟩
    rcases List.mem_pair.1 hc with rfl | rfl <;> decide
  have hproper : ∀ τ ∈ turns, τ.Proper := by
    intro τ hτ
    rcases List.mem_cons.1 hτ with rfl | hτ
    · exact .request
    · rcases List.mem_append.1 hτ with hτ | hτ
      · rw [List.eq_of_mem_replicate hτ]
        trivial
      · rcases List.mem_pair.1 hτ with rfl | rfl <;> trivial
  have hmoreproper : ∀ τ ∈ more, τ.Proper := by
    intro τ hτ
    rw [List.eq_of_mem_replicate hτ]
    trivial
  obtain ⟨-, -, -, -, haccount⟩ := merging_in_one_hand hopened hproper hturns
  obtain ⟨hback, hnothing⟩ := haccount (.client 0) .everything _ more u hmoreproper hstart
    hmiddle.1 hmore hphase (by simp)
  exact ⟨s, t, u, hopen, hturns, hmore, hphase, hback, hmiddle.2, hnothing⟩

end Store

end Strata
