import Strata.Proofs.Merge.Call
import Strata.Proofs.Store.Exclusive

/-!
# Threads that are done with merges

A call that waits or has its answer, and a merge that has done all but land, submit nothing any
more, and what the merges to come depend on stands still in their steps. Any other thread is at
work. It submits a merge only with a step after which it is at work no more, so there are never more
threads at work than calls begun.
-/

namespace Strata

/-- What of an index the merges to come depend on. -/
structure Situation extends Ledger where
  policy : Policy
  /-- Whether a merge of all components has been asked for. -/
  requested : Bool
  /-- The merges that have failed since the last one that succeeded. -/
  failures : Nat

def Store.situation (s : Store) : Situation :=
  { s.ledger with policy := s.policy, requested := s.fullRequested, failures := s.failures }

/-- A call of the policy that submits no merge any more. -/
def Consultation.Idle : Consultation → Prop
  | .thinking call => call.phase.Idle
  | .scheduling _ (.answered _) => True
  | .scheduling .. => False

def Task.Idle : Task → Prop
  | .consult k => k.Idle
  | .drain => True
  | .draining _ => True
  | .drowse _ => True
  | .asleep _ => True
  | .returned _ => True
  | _ => False

def Job.Idle (job : Job) : Prop :=
  match job.phase with
  | .consult k => k.Idle
  | .land => True
  | .signal => True
  | .over => True
  | .lost => True
  | _ => False

/-- A thread that submits no merge any more. -/
def Thread.Idle : Thread → Prop
  | .call task => task.Idle
  | .merge job => job.Idle

theorem Consultation.idle_of_answer? {k : Consultation} {answer : Except Error Unit}
    (h : k.answer? = some answer) : k.Idle := by
  cases k with
  | thinking call =>
    obtain ⟨policy, full, phase⟩ := call
    cases phase with
    | finished given => trivial
    | _ => simp [Consultation.answer?, Call.answer?] at h
  | scheduling call phase => simp [Consultation.answer?] at h

/-- The scheduling that a thread has under way. -/
def Thread.scheduling? : Thread → Option Scheduling
  | .call task => task.scheduling?
  | .merge job => job.scheduling?

/-- The merge that takes a step, and the phase it comes to. -/
def Thread.mergeStep? : Thread → Thread → Option (Job × Job.Phase)
  | .merge job, .merge job' => some (job, job'.phase)
  | _, _ => none

namespace Store

/-- The merges a turn submits, and whether each is one of all components. -/
def orders (s : Store) (τ : Turn) : List (Bool × List Component) :=
  match τ.actor?.bind s.scheduling?, s.turn τ with
  | some (.submit all members), some t =>
    if s.pool.queue.length < t.pool.queue.length then [(all, members)] else []
  | _, _ => []

/-- The merges that a step of a thread submits, if `new` are those that join the pool. -/
def Orders (thread thread' : Thread) (new : List Job) (ordered : List (Bool × List Component)) :
    Prop :=
  (new = [] ∧ ordered = []) ∨ ∃ all members, thread.scheduling? = some (.submit all members) ∧
    new = [{ members }] ∧ ordered = [(all, members)] ∧ thread'.Idle

variable {s s' t : Store} {new : List Job} {thread thread' : Thread}

theorem orders_consults {k k' : Consultation} (h : s.Consults k s' k' new) :
    new = [] ∨ ∃ all members, k.scheduling? = some (.submit all members) ∧ new = [{ members }] ∧
      k'.Idle := by
  cases h with
  | schedule hphase hstep =>
    cases hstep with
    | submit hpool =>
      refine .inr ⟨_, _, rfl, rfl, ?_⟩
      rw [Scheduling.conclude_ok_true]
      trivial
    | _ => exact .inl rfl
  | _ => exact .inl rfl

/-- A thread that submits a merge is at work no more. -/
theorem orders_acts (h : s.Acts thread s' thread' new) :
    new = [] ∨ ∃ all members, thread.scheduling? = some (.submit all members) ∧
      new = [{ members }] ∧ thread'.Idle := by
  cases h with
  | call hcalls =>
    cases hcalls with
    | consult hstep => exact orders_consults hstep
    | _ => exact .inl rfl
  | merge hmerges =>
    cases hmerges with
    | consult hstep => exact orders_consults hstep
    | _ => exact .inl rfl

theorem idle_consults {k k' : Consultation} (h : s.Consults k s' k' new) (hidle : k.Idle) :
    k'.Idle ∧ new = [] ∧ s'.situation = s.situation := by
  cases h with
  | think hstep =>
    obtain ⟨tracker, metrics, rfl, -, -⟩ := Call.step_frame hstep
    exact ⟨Phase.idle_of_advances (Phase.advances_of_step hstep) hidle, rfl, rfl⟩
  | order horder =>
    rename_i call order
    obtain ⟨policy, full, phase⟩ := call
    cases phase with
    | ordered given => exact hidle.elim
    | _ => simp [Call.order?] at horder
  | schedule hphase hstep =>
    rename_i call phase phase'
    cases phase with
    | answered answer => simp [Scheduling.answer?] at hphase
    | _ => exact hidle.elim
  | reply =>
    rename_i call answer
    obtain ⟨metrics, result, hreply⟩ := Call.reply_frame s.board call answer
    rw [hreply]
    exact ⟨trivial, rfl, rfl⟩

/-- An idle thread stays idle, and what merges depend on stands still. -/
theorem idle_acts (h : s.Acts thread s' thread' new) (hidle : thread.Idle) :
    thread'.Idle ∧ new = [] ∧ s'.situation = s.situation := by
  cases h with
  | call hcalls =>
    cases hcalls with
    | consulted hanswer => exact ⟨trivial, rfl, rfl⟩
    | consult hstep => exact idle_consults hstep hidle
    | drain => exact ⟨trivial, rfl, rfl⟩
    | draining htask => rcases htask with rfl | rfl <;> exact ⟨trivial, rfl, rfl⟩
    | drowse htask => rcases htask with rfl | rfl <;> exact ⟨trivial, rfl, rfl⟩
    | wake => exact ⟨trivial, rfl, rfl⟩
    | _ => exact hidle.elim
  | merge hmerges =>
    cases hmerges with
    | consulted hanswer => exact ⟨trivial, rfl, rfl⟩
    | consult hstep => exact idle_consults hstep hidle
    | land => exact ⟨trivial, rfl, rfl⟩
    | signal => exact ⟨trivial, rfl, rfl⟩
    | _ => exact hidle.elim

/-- How an index takes a turn, thread by thread: one takes a step, a client begins a call, or none
does anything. -/
inductive Passes (s : Store) (τ : Turn) (t : Store) : Prop where
  | acts {thread thread' : Thread} {s' : Store} {new : List Job} {others : List Thread}
      (hacts : s.Acts thread s' thread' new)
      (hbefore : s.threads.Perm (thread :: others))
      (hafter : t.threads.Perm (thread'.remains ++ (new.map Thread.merge ++ others)))
      (hsituation : t.situation = s'.situation) (hflight : t.inFlight = s'.inFlight)
      (hmerge : s.mergeStep? τ = thread.mergeStep? thread')
      (horders : Orders thread thread' new (s.orders τ)) : Passes s τ t
  | begin {task : Task} (hcall : τ = .action (.call task))
      (hthreads : t.threads.Perm (.call task :: s.threads))
      (hsituation : t.situation = s.situation) (hflight : t.inFlight = s.inFlight) :
      Passes s τ t
  | stand (hthreads : t.threads.Perm s.threads) (hsituation : t.situation = s.situation)
      (hflight : t.inFlight = s.inFlight) (hmerge : s.mergeStep? τ = none)
      (horders : s.orders τ = []) : Passes s τ t

/-- What a turn submits is told by the thread that takes a step, and by the queue. -/
theorem orders_of_acts {τ : Turn} (hturn : s.turn τ = some t)
    (hacts : s.Acts thread s' thread' new)
    (hscheduling : τ.actor?.bind s.scheduling? = thread.scheduling?)
    (hsubmitted : s.Submitted s' new) (hqueue : t.pool.queue = s'.pool.queue) :
    Orders thread thread' new (s.orders τ) := by
  rw [orders, hscheduling, hturn]
  rcases hsubmitted.2 with ⟨rfl, hpool⟩ | ⟨members, rfl, hsubmit⟩
  · refine .inl ⟨rfl, ?_⟩
    split
    · rename_i heq
      obtain rfl := Option.some.inj heq
      rw [hqueue, hpool, if_neg (Nat.lt_irrefl _)]
    · rfl
  · obtain ⟨all, members', hphase, hnew, hidle⟩ := (orders_acts hacts).resolve_left (by simp)
    obtain rfl : members = members' := by simpa using hnew
    have hlonger : s.pool.queue.length < t.pool.queue.length := by
      rw [hqueue, Pool.submit_eq_ok hsubmit]
      simp
    refine .inr ⟨all, members, hphase, rfl, ?_, hidle⟩
    rw [hphase]
    exact if_pos hlonger

theorem orders_eq_nil {τ : Turn} (hactor : τ.actor? = none) : s.orders τ = [] := by
  rw [orders, hactor]
  rfl

/-- Every turn is taken in one of these ways. -/
theorem passes_of_turn {τ : Turn} (hturn : s.turn τ = some t) : s.Passes τ t := by
  cases takes_of_turn hturn with
  | client hclient hworker htask hcalls hclients hbefore hafter =>
    refine .acts (.call hcalls) hbefore hafter rfl rfl (mergeStep?_eq_none hworker) ?_
    refine orders_of_acts hturn (.call hcalls) ?_ (submitted_calls hcalls) rfl
    rw [Turn.actor?_of_client? hclient, Option.bind_some, scheduling?, htask]
    rfl
  | work hworker hclient hjob hmerges hworkers hclients hbefore hafter =>
    refine .acts (.merge hmerges) hbefore hafter rfl rfl
      (mergeStep?_eq hturn hworker hjob hworkers) ?_
    refine orders_of_acts hturn (.merge hmerges) ?_ (submitted_merges hmerges) rfl
    rw [Turn.actor?_of_worker? hworker, Option.bind_some, scheduling?, hjob]
    rfl
  | begin =>
    refine .begin rfl ?_ rfl rfl
    rw [threads, threads, List.map_append, List.append_assoc]
    exact List.perm_middle
  | idle hclient hworker hjobs hqueue =>
    exact .stand ((hjobs.map Thread.merge).append_left _) rfl rfl (mergeStep?_eq_none hworker)
      (orders_eq_nil (Turn.actor?_eq_none hclient hworker))

end Store

end Strata
