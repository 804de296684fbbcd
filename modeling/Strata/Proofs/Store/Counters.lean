import Mathlib.Data.Bool.Count
import Strata.Proofs.Store.Cascade
import Strata.Proofs.Store.Flight
import Strata.Proofs.Store.Requests

/-!
# What an index counts

An index counts a flush when it reports the component, a merge as scheduled when the policy learns
that it was submitted, and a merge as completed or failed when it reports how it ended. Between the
event and its count a thread stands where it is about to count it. So what is counted, and what
threads are about to count, add up to what has happened; and when no thread is at work, as many
merges have been scheduled as have ended. A scheduling that lost a claim, or whose merge was
refused, is counted nowhere.
-/

namespace Strata

/-- What a step adds to the counts of flushes and merges. -/
structure Metrics.Adds (m m' : Metrics) (flushed ordered completed failed : Nat) : Prop where
  flushes : m'.flushes = m.flushes + flushed
  ordered : m'.scheduled + m'.fullScheduled = m.scheduled + m.fullScheduled + ordered
  completed : m'.completed = m.completed + completed
  failed : m'.failed = m.failed + failed

theorem Metrics.adds_none {m m' : Metrics}
    (h : ∃ blocks deferred, m' = { m with blocks, deferred }) : m.Adds m' 0 0 0 0 := by
  obtain ⟨blocks, deferred, rfl⟩ := h
  exact ⟨rfl, rfl, rfl, rfl⟩

/-- Whether a scheduling has submitted its merge, which is not counted yet. -/
def Scheduling.uncounted : Scheduling → Nat
  | .answered (.ok true) => 1
  | .restore (.ok true) => 1
  | _ => 0

/-- A claim was lost, or the merge was refused: what was claimed is handed back, and the policy will
learn that nothing was submitted. -/
def Scheduling.Futile : Scheduling → Prop
  | .giveUp .. => True
  | .withdraw .. => True
  | .handBack .. => True
  | .restore answer => answer ≠ .ok true
  | .answered answer => answer ≠ .ok true
  | _ => False

theorem Scheduling.uncounted_conclude (all : Bool) {answer : Except Error Bool}
    (h : answer ≠ .ok true) : (conclude all answer).uncounted = 0 := by
  cases all <;> cases answer with
  | error e => rfl
  | ok scheduled =>
    cases scheduled with
    | false => rfl
    | true => exact absurd rfl h

theorem Scheduling.futile_conclude (all : Bool) {answer : Except Error Bool}
    (h : answer ≠ .ok true) : (conclude all answer).Futile := by
  cases all <;> cases answer with
  | error e => exact h
  | ok scheduled =>
    cases scheduled with
    | false => exact h
    | true => exact absurd rfl h

namespace Thread

/-- Whether a thread is about to report, and to count, the component of a flush. -/
def reports : Thread → Nat
  | .call (.report _) => 1
  | _ => 0

/-- Whether a thread is about to tell the policy, which counts it, that its merge was submitted. -/
def confirms (thread : Thread) : Nat :=
  match thread.scheduling? with
  | some (.answered (.ok true)) => 1
  | _ => 0

/-- Whether a thread has submitted a merge that is not counted yet. -/
def uncounted (thread : Thread) : Nat := (thread.scheduling?.map Scheduling.uncounted).getD 0

/-- How the merge of a thread ends in its next step, if it does. -/
def ends : Thread → List Bool
  | .call _ => []
  | .merge job => job.outcome

/-- Whether a thread is a merge that has neither succeeded nor failed. -/
def undecided : Thread → Nat
  | .call _ => 0
  | .merge job => if job.isUndecided then 1 else 0

/-- The component that a step of a thread writes by a flush. -/
def flushed : Thread → Thread → List Component
  | .call .flush, .call (.report c) => [c]
  | _, _ => []

theorem weighs_reports : Weighs reports where
  begins h := by cases h <;> rfl
  done h := by cases h <;> rfl

theorem weighs_uncounted : Weighs uncounted where
  begins h := by cases h <;> rfl
  done h := by cases h <;> rfl

theorem weighs_undecided : Weighs undecided where
  begins _ := rfl
  done h := by cases h <;> rfl

end Thread

namespace Store

variable {s s' t u : Store} {new : List Job} {thread thread' : Thread} {τ : Turn}
variable {turns : List Turn} {weight : Thread → Nat}

/-- The component that a turn writes by a flush. -/
def flushed (s : Store) (τ : Turn) : List Component :=
  (do
    let i ← τ.client?
    let task ← s.clients[i]?
    let t ← s.turn τ
    let task' ← t.clients[i]?
    return Thread.flushed (.call task) (.call task')).getD []

theorem flushed_eq_nil (hclient : τ.client? = none) : s.flushed τ = [] := by
  rw [flushed, hclient]
  rfl

/-- How a turn goes into the books of an index: one thread takes a step, or calls begin while all
threads stand still. -/
inductive Books (s : Store) (τ : Turn) (t : Store) : Prop where
  | acts {thread thread' : Thread} {s' : Store} {new : List Job} {others : List Thread}
      (hacts : s.Acts thread s' thread' new)
      (hbefore : s.threads.Perm (thread :: others))
      (hafter : t.threads.Perm (thread'.remains ++ (new.map Thread.merge ++ others)))
      (hboard : t.board = s'.board) (hserial : t.nextSerial = s'.nextSerial)
      (hscheduling : τ.actor?.bind s.scheduling? = thread.scheduling?)
      (hmerge : s.mergeStep? τ = thread.mergeStep? thread')
      (hflushed : s.flushed τ = thread.flushed thread')
      (horders : Orders thread thread' new (s.orders τ)) : Books s τ t
  | stands {begun : List Task} (hbegun : ∀ task ∈ begun, task.Begins)
      (hthreads : t.threads.Perm (begun.map Thread.call ++ s.threads))
      (hboard : t.board = s.board) (hserial : t.nextSerial = s.nextSerial)
      (hactor : τ.actor? = none) (hmerge : s.mergeStep? τ = none) (hflushed : s.flushed τ = [])
      (horders : s.orders τ = []) : Books s τ t

/-- Every turn goes into the books in one of these ways. -/
theorem books_of_turn (hproper : τ.Proper) (hturn : s.turn τ = some t) : s.Books τ t := by
  cases takes_of_turn hturn with
  | client hclient hworker htask hcalls hclients hbefore hafter =>
    rename_i i task task' s' new others
    have hscheduling : τ.actor?.bind s.scheduling? = (Thread.call task).scheduling? := by
      rw [Turn.actor?_of_client? hclient, Option.bind_some, scheduling?, htask]
      rfl
    have hi : i < s'.clients.length := hclients ▸ (List.getElem?_eq_some_iff.1 htask).1
    have hflushed : s.flushed τ = Thread.flushed (.call task) (.call task') := by
      simp [flushed, hclient, htask, hturn, List.getElem?_set_self hi]
    exact .acts (.call hcalls) hbefore hafter rfl rfl hscheduling
      (mergeStep?_eq_none hworker) hflushed
      (orders_of_acts hturn (.call hcalls) hscheduling (submitted_calls hcalls) rfl)
  | work hworker hclient hjob hmerges hworkers hclients hbefore hafter =>
    rename_i i job phase s' new others
    have hscheduling : τ.actor?.bind s.scheduling? = (Thread.merge job).scheduling? := by
      rw [Turn.actor?_of_worker? hworker, Option.bind_some, scheduling?, hjob]
      rfl
    exact .acts (.merge hmerges) hbefore hafter rfl rfl hscheduling
      (mergeStep?_eq hturn hworker hjob hworkers) (flushed_eq_nil hclient)
      (orders_of_acts hturn (.merge hmerges) hscheduling (submitted_merges hmerges) rfl)
  | begin =>
    rename_i task
    have hthreads : ({ s with clients := s.clients ++ [task] } : Store).threads.Perm
        ([task].map Thread.call ++ s.threads) := by
      rw [threads, threads, List.map_append, List.append_assoc]
      exact List.perm_middle
    exact .stands (List.forall_mem_singleton.2 hproper) hthreads rfl rfl rfl
      (mergeStep?_eq_none rfl) (flushed_eq_nil rfl) (orders_eq_nil rfl)
  | idle hclient hworker hjobs hqueue =>
    have hactor := Turn.actor?_eq_none hclient hworker
    exact @Books.stands s τ _ [] (List.forall_mem_nil _) ((hjobs.map Thread.merge).append_left _)
      rfl rfl hactor (mergeStep?_eq_none hworker) (flushed_eq_nil hclient)
      (orders_eq_nil hactor)

/-- Scheduling counts no flush and no merge. What it submits is left for the policy to count. -/
theorem adds_schedules {phase phase' : Scheduling} (h : s.Schedules phase s' phase' new) :
    s.board.metrics.Adds s'.board.metrics 0 0 0 0 ∧
      phase'.uncounted = phase.uncounted + new.length := by
  have hsame : s.board.metrics.Adds s.board.metrics 0 0 0 0 := ⟨rfl, rfl, rfl, rfl⟩
  cases h with
  | claimNone => exact ⟨hsame, Scheduling.uncounted_conclude _ (by simp)⟩
  | gaveUp => exact ⟨⟨rfl, rfl, rfl, rfl⟩, Scheduling.uncounted_conclude _ (by simp)⟩
  | giveUpLost hstate => exact ⟨hsame, Scheduling.uncounted_conclude _ (by simp)⟩
  | submit hpool =>
    rw [Scheduling.conclude_ok_true]
    exact ⟨hsame, rfl⟩
  | handedBack => exact ⟨hsame, Scheduling.uncounted_conclude _ (by simp)⟩
  | handBackLost hstate => exact ⟨hsame, Scheduling.uncounted_conclude _ (by simp)⟩
  | restore =>
    rename_i answer
    refine ⟨hsame, ?_⟩
    cases answer with
    | error e => rfl
    | ok scheduled => cases scheduled <;> rfl
  | _ => exact ⟨hsame, rfl⟩

/-- A scheduling that has come to nothing stays so. -/
theorem futile_schedules {phase phase' : Scheduling} (h : s.Schedules phase s' phase' new)
    (hfutile : phase.Futile) : phase'.Futile := by
  cases h with
  | gaveUp => exact Scheduling.futile_conclude _ (by simp)
  | giveUp hstate => trivial
  | giveUpLost hstate => exact Scheduling.futile_conclude _ (by simp)
  | withdraw => trivial
  | handedBack => exact Scheduling.futile_conclude _ (by simp)
  | handBack hstate => trivial
  | handBackLost hstate => exact Scheduling.futile_conclude _ (by simp)
  | restore => exact hfutile
  | _ => exact hfutile.elim

/-- The policy counts a merge when it learns that it was submitted, and no other. -/
theorem adds_consults {k k' : Consultation} (h : s.Consults k s' k' new) :
    s.board.metrics.Adds s'.board.metrics 0 (Thread.call (.consult k)).confirms 0 0 ∧
      (Thread.call (.consult k')).uncounted + (Thread.call (.consult k)).confirms =
        (Thread.call (.consult k)).uncounted + new.length := by
  cases h with
  | think hstep => exact ⟨Metrics.adds_none (Call.metrics_step hstep), rfl⟩
  | order horder =>
    rename_i order
    refine ⟨⟨rfl, rfl, rfl, rfl⟩, ?_⟩
    cases order <;> rfl
  | schedule hphase hstep =>
    rename_i call phase phase'
    have hnone : (Thread.call (.consult (.scheduling call phase))).confirms = 0 := by
      cases phase with
      | answered answer => simp [Scheduling.answer?] at hphase
      | _ => rfl
    rw [hnone]
    exact adds_schedules hstep
  | reply =>
    rename_i call answer
    cases answer with
    | error e => exact ⟨⟨rfl, rfl, rfl, rfl⟩, rfl⟩
    | ok scheduled =>
      cases scheduled with
      | false => exact ⟨⟨rfl, rfl, rfl, rfl⟩, rfl⟩
      | true =>
        refine ⟨?_, rfl⟩
        obtain ⟨policy, full, phase⟩ := call
        cases full with
        | false => exact ⟨rfl, Nat.succ_add .., rfl, rfl⟩
        | true => exact ⟨rfl, rfl, rfl, rfl⟩

theorem adds_calls {task task' : Task} (h : s.Calls task s' task' new) :
    s.board.metrics.Adds s'.board.metrics (Thread.call task).reports (Thread.call task).confirms
      0 0 ∧
    (Thread.call task').uncounted + (Thread.call task).confirms =
      (Thread.call task).uncounted + new.length ∧
    (Thread.call task').reports = (Thread.flushed (.call task) (.call task')).length := by
  have hsame : s.board.metrics.Adds s.board.metrics 0 0 0 0 := ⟨rfl, rfl, rfl, rfl⟩
  cases h with
  | insert htask => rcases htask with rfl | rfl <;> exact ⟨hsame, rfl, rfl⟩
  | report => exact ⟨⟨rfl, rfl, rfl, rfl⟩, rfl, rfl⟩
  | requested htask => rcases htask with rfl | rfl <;> exact ⟨hsame, rfl, rfl⟩
  | consulted hanswer =>
    rename_i k answer
    cases k with
    | thinking call => exact ⟨hsame, rfl, rfl⟩
    | scheduling call phase => simp [Consultation.answer?] at hanswer
  | consult hstep =>
    obtain ⟨hadds, hcount⟩ := adds_consults hstep
    exact ⟨hadds, hcount, rfl⟩
  | draining htask => rcases htask with rfl | rfl <;> exact ⟨hsame, rfl, rfl⟩
  | drowse htask => rcases htask with rfl | rfl <;> exact ⟨hsame, rfl, rfl⟩
  | _ => exact ⟨hsame, rfl, rfl⟩

theorem adds_merges {job : Job} {phase : Job.Phase} (h : s.Merges job s' phase new) :
    s.board.metrics.Adds s'.board.metrics 0 (Thread.merge job).confirms (job.outcome.count true)
      (job.outcome.count false) ∧
    (Thread.merge { job with phase }).uncounted + (Thread.merge job).confirms =
      (Thread.merge job).uncounted + new.length := by
  have hsame : s.board.metrics.Adds s.board.metrics 0 0 0 0 := ⟨rfl, rfl, rfl, rfl⟩
  have hfails : ∀ {members : List Component} (f : Failure),
      (Thread.merge ⟨members, Job.phaseOf f⟩).uncounted = 0 := by
    intro members f
    cases f <;> rfl
  cases h with
  | readFails => exact ⟨hsame, hfails _⟩
  | buildFails => exact ⟨hsame, hfails _⟩
  | succeed => exact ⟨⟨rfl, rfl, rfl, rfl⟩, rfl⟩
  | failRetry hretry => exact ⟨⟨rfl, rfl, rfl, rfl⟩, rfl⟩
  | failPark hpark => exact ⟨⟨rfl, rfl, rfl, rfl⟩, rfl⟩
  | consulted hanswer =>
    rename_i k answer
    cases k with
    | thinking call => exact ⟨hsame, rfl⟩
    | scheduling call phase => simp [Consultation.answer?] at hanswer
  | consult hstep => exact adds_consults hstep
  | _ => exact ⟨hsame, rfl⟩

/-- What a step counts is told by where its thread stood, and what it leaves uncounted by where the
thread stands then. -/
theorem adds_acts (h : s.Acts thread s' thread' new) :
    s.board.metrics.Adds s'.board.metrics thread.reports thread.confirms (thread.ends.count true)
      (thread.ends.count false) ∧
    thread'.uncounted + thread.confirms = thread.uncounted + new.length ∧
    thread'.reports = (thread.flushed thread').length := by
  cases h with
  | call hcalls => exact adds_calls hcalls
  | merge hmerges =>
    obtain ⟨hadds, hcount⟩ := adds_merges hmerges
    exact ⟨hadds, hcount, rfl⟩

/-- A merge that is decided by a step has ended in it, or was broken off. -/
theorem undecided_acts (h : s.Acts thread s' thread' new) :
    thread'.undecided + thread.ends.length + thread'.broken = thread.undecided := by
  have hfails : ∀ (members : List Component) (f : Failure),
      (Thread.merge ⟨members, Job.phaseOf f⟩).undecided +
        (Thread.merge ⟨members, Job.phaseOf f⟩).broken = 1 := by
    intro members f
    cases f <;> rfl
  cases h with
  | call hcalls => rfl
  | merge hmerges =>
    cases hmerges with
    | readFails => exact hfails ..
    | buildFails => exact hfails ..
    | _ => rfl

/-- What is counted on the way to a state, and what threads have still to count there, against what
has happened: the components that flushes wrote, the merges submitted, how merges ended, and those
broken off. -/
structure Tallies (s t : Store) (flushed : List Component)
    (submitted : List (Bool × List Component)) (ends : List Bool) (broken : List (List Component)) :
    Prop where
  flushes : t.board.metrics.flushes + t.total Thread.reports =
    s.board.metrics.flushes + s.total Thread.reports + flushed.length
  ordered : t.board.metrics.scheduled + t.board.metrics.fullScheduled + t.total Thread.uncounted =
    s.board.metrics.scheduled + s.board.metrics.fullScheduled + s.total Thread.uncounted +
      submitted.length
  completed : t.board.metrics.completed = s.board.metrics.completed + ends.count true
  failed : t.board.metrics.failed = s.board.metrics.failed + ends.count false
  undecided : t.total Thread.undecided + ends.length + broken.length =
    s.total Thread.undecided + submitted.length

theorem tallies_turn (h : s.Books τ t) :
    s.Tallies t (s.flushed τ) (s.orders τ) (s.outcomes τ) (s.breaks τ) := by
  cases h with
  | acts hacts hbefore hafter hboard hserial hscheduling hmerge hflushed horders =>
    rename_i thread thread' s' new others
    obtain ⟨⟨hflushes, hordered, hcompleted, hfailed⟩, huncounted, hreports⟩ := adds_acts hacts
    have hundecided := undecided_acts hacts
    have hbroken := breaks_of_acts hacts hmerge
    have hends : s.outcomes τ = thread.ends := by
      rw [outcomes, hmerge]
      cases hacts <;> rfl
    -- a merge that has just been submitted is undecided, and weighs nothing else
    have hnew : new.length = (s.orders τ).length ∧
        (new.map fun job => Thread.reports (.merge job)).sum = 0 ∧
        (new.map fun job => Thread.uncounted (.merge job)).sum = 0 ∧
        (new.map fun job => Thread.undecided (.merge job)).sum = new.length := by
      rcases horders with ⟨rfl, hnone⟩ | ⟨all, members, -, rfl, hone, -⟩
      · exact ⟨by rw [hnone]; rfl, rfl, rfl, rfl⟩
      · exact ⟨by rw [hone]; rfl, rfl, rfl, rfl⟩
    have htotalReports := total_of_acts Thread.weighs_reports hbefore hafter
    have htotalUncounted := total_of_acts Thread.weighs_uncounted hbefore hafter
    have htotalUndecided := total_of_acts Thread.weighs_undecided hbefore hafter
    rw [← hboard] at hflushes hordered hcompleted hfailed
    rw [← hflushed] at hreports
    refine ⟨by omega, by omega, hends ▸ hcompleted, hends ▸ hfailed, ?_⟩
    rw [hends]
    omega
  | stands hbegun hthreads hboard hserial hactor hmerge hflushed horders =>
    have hends : s.outcomes τ = [] := by
      rw [outcomes, hmerge]
      rfl
    have hbroken : s.breaks τ = [] := by
      rw [breaks, hmerge]
      rfl
    rw [hflushed, horders, hends, hbroken]
    refine ⟨?_, ?_, congrArg (·.metrics.completed) hboard, congrArg (·.metrics.failed) hboard, ?_⟩
    · rw [hboard, total_of_begun Thread.weighs_reports hbegun hthreads]
      rfl
    · rw [hboard, total_of_begun Thread.weighs_uncounted hbegun hthreads]
      rfl
    · rw [total_of_begun Thread.weighs_undecided hbegun hthreads]
      rfl

theorem Tallies.trans {flushed flushed' : List Component}
    {submitted submitted' : List (Bool × List Component)} {ends ends' : List Bool}
    {broken broken' : List (List Component)} (h : s.Tallies u flushed submitted ends broken)
    (h' : u.Tallies t flushed' submitted' ends' broken') :
    s.Tallies t (flushed ++ flushed') (submitted ++ submitted') (ends ++ ends')
      (broken ++ broken') := by
  obtain ⟨hflushes, hordered, hcompleted, hfailed, hundecided⟩ := h
  obtain ⟨hflushes', hordered', hcompleted', hfailed', hundecided'⟩ := h'
  refine ⟨?_, ?_, ?_, ?_, ?_⟩ <;> simp only [List.length_append, List.count_append] <;> omega

/-- Along a course, what is counted adds up to what happens. -/
theorem tallies_course (hproper : ∀ τ ∈ turns, τ.Proper) (hcourse : s.course turns = some t) :
    s.Tallies t (s.trail flushed turns) (s.trail orders turns) (s.trail outcomes turns)
      (s.trail breaks turns) := by
  induction turns generalizing s with
  | nil =>
    obtain rfl := Option.some.inj hcourse
    exact ⟨rfl, rfl, rfl, rfl, rfl⟩
  | cons τ rest ih =>
    obtain ⟨u, hturn, hrest⟩ := Option.bind_eq_some_iff.1 hcourse
    rw [List.forall_mem_cons] at hproper
    simp only [trail_cons _ hturn]
    exact (tallies_turn (books_of_turn hproper.1 hturn)).trans (ih hproper.2 hrest)

/-- Along a course, merges in flight are those that threads account for, and those broken off. -/
theorem flight_course (h : s.Counts) (hproper : ∀ τ ∈ turns, τ.Proper)
    (hcourse : s.course turns = some t) :
    t.Counts ∧ t.flight + (s.trail breaks turns).length + s.inFlight = s.flight + t.inFlight := by
  induction turns generalizing s with
  | nil =>
    obtain rfl := Option.some.inj hcourse
    exact ⟨h, rfl⟩
  | cons τ rest ih =>
    obtain ⟨u, hturn, hrest⟩ := Option.bind_eq_some_iff.1 hcourse
    rw [List.forall_mem_cons] at hproper
    have hfirst := flight_turn h hproper.1 hturn
    obtain ⟨hcounts, hlater⟩ := ih (h.turn hproper.1 hturn) hproper.2 hrest
    simp only [trail_cons _ hturn, List.length_append]
    exact ⟨hcounts, by omega⟩

/-- A step of a scheduling that has come to nothing counts nothing, and the scheduling stays so. -/
theorem futile_turn {phase : Scheduling} (hproper : τ.Proper) (hturn : s.turn τ = some t)
    (hphase : τ.actor?.bind s.scheduling? = some phase) (hfutile : phase.Futile) :
    s.board.metrics.Adds t.board.metrics 0 0 0 0 ∧
      ∀ p phase', τ.actor? = some p → t.scheduling? p = some phase' → phase'.Futile := by
  refine ⟨?_, fun p phase' hactor hphase' => ?_⟩
  · cases books_of_turn hproper hturn with
    | acts hacts hbefore hafter hboard hserial hscheduling hmerge hflushed horders =>
      rename_i thread thread' s' new others
      have hthread : thread.scheduling? = some phase := hscheduling ▸ hphase
      have hadds := (adds_acts hacts).1
      have hconfirms : thread.confirms = 0 := by
        rw [Thread.confirms, hthread]
        cases phase with
        | answered answer =>
          cases answer with
          | error e => rfl
          | ok scheduled =>
            cases scheduled with
            | false => rfl
            | true => exact absurd rfl hfutile
        | _ => rfl
      have hrest : thread.reports = 0 ∧ thread.ends = [] := by
        cases thread with
        | call task =>
          cases task with
          | report c => simp [Thread.scheduling?, Task.scheduling?] at hthread
          | _ => exact ⟨rfl, rfl⟩
        | merge job =>
          obtain ⟨members, before⟩ := job
          cases before with
          | consult k => exact ⟨rfl, rfl⟩
          | _ => simp [Thread.scheduling?, Job.scheduling?] at hthread
      rw [hconfirms, hrest.1, hrest.2] at hadds
      rw [hboard]
      exact hadds
    | stands hbegun hthreads hboard hserial hactor =>
      rw [hactor] at hphase
      contradiction
  · rw [hactor, Option.bind_some] at hphase
    rcases scheduling_turn hturn hphase hphase' with ⟨-, s', new, hstep, -⟩ | ⟨hother, -⟩
    · exact futile_schedules hstep hfutile
    · exact absurd hactor hother

/-- In an index that has just been opened there is no thread, and nothing is counted. -/
theorem fresh_of_opened (h : s.Opened) :
    s.threads = [] ∧ s.inFlight = 0 ∧ s.board.metrics = {} := by
  obtain ⟨options, policy, codec, files, components, -, hopen⟩ := h
  obtain ⟨-, -, -, rfl⟩ := ofComponents_eq_ok_iff.1 hopen
  refine ⟨?_, rfl, rfl⟩
  rw [threads, Pool.jobs_start]
  rfl

theorem total_of_opened (h : s.Opened) (weight : Thread → Nat) : s.total weight = 0 := by
  rw [total, (fresh_of_opened h).1]
  rfl

theorem counts_of_opened (h : s.Opened) : s.Counts := by
  have hstart : s.flight = 0 := total_of_opened h Thread.flight
  rw [Counts, hstart]
  exact Nat.zero_le _

/-- At rest every flush and every merge submitted is counted, and every merge has ended. -/
theorem settled_course (hopen : s.Opened) (hproper : ∀ τ ∈ turns, τ.Proper)
    (hcourse : s.course turns = some t) (hrests : t.Rests) :
    t.board.metrics.flushes = (s.trail flushed turns).length ∧
    t.board.metrics.scheduled + t.board.metrics.fullScheduled =
      t.board.metrics.completed + t.board.metrics.failed := by
  obtain ⟨-, hlanded, hmetrics⟩ := fresh_of_opened hopen
  have hstart : s.flight = 0 := total_of_opened hopen Thread.flight
  obtain ⟨hcounts, hflight⟩ := flight_course (counts_of_opened hopen) hproper hcourse
  obtain ⟨hflushes, hordered, hcompleted, hfailed, hundecided⟩ := tallies_course hproper hcourse
  have hnone : ∀ {weight : Thread → Nat}, Thread.Weighs weight → t.total weight = 0 :=
    hrests.total_eq_zero hcounts
  simp only [hnone Thread.weighs_reports, total_of_opened hopen, hmetrics] at hflushes
  simp only [hnone Thread.weighs_uncounted, total_of_opened hopen, hmetrics] at hordered
  rw [hnone Thread.weighs_undecided, total_of_opened hopen] at hundecided
  rw [hmetrics] at hcompleted hfailed
  rw [hrests.landed] at hflight
  have hends := List.count_true_add_count_false (s.trail outcomes turns)
  simp only at hcompleted hfailed
  exact ⟨by omega, by omega⟩

end Store

end Strata
