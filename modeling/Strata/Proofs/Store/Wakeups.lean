import Strata.Proofs.Store.Lone
import Strata.Proofs.Store.Notifications

/-!
# No notification is lost

A producer notes the generation before it takes the list of components, and waits only while the
generation is the one it noted. So wherever a notification falls between the two, or behind them,
the producer takes the list anew before it waits. It goes on without doing so only where the list it
has, though older than the notification, is within the tolerance. Who waits is counted: clients
only, since the policy never makes a merge wait.
-/

namespace Strata

namespace Phase

/-- A call of the policy that has noted a generation and taken the list since: it counts, or it is
at the wait. -/
def Scanned (g : Nat) : Phase → Prop
  | .count _ observed _ _ => observed = g
  | .drowse observed => observed = g
  | .asleep observed => observed = g
  | _ => False

/-- A call of the policy that is at the wait for a generation other than the one it noted. -/
def Sits (g : Nat) : Phase → Prop
  | .drowse observed => observed = g
  | .asleep observed => observed = g
  | _ => False

/-- A call of the policy that is about to take the list. -/
def Rescans : Phase → Prop
  | .observe _ => True
  | .look .. => True
  | _ => False

/-- A call of the policy that is still counting the list it has taken. -/
def Counts (g : Nat) (phase : Phase) : Prop :=
  ∃ waited rest small, phase = .count waited g rest small

/-- The generation that a counting call of the policy has noted, and how far it has counted. -/
def counted? : Phase → Option (Nat × Nat)
  | .count _ observed _ small => some (observed, small)
  | _ => none

/-- A call of the policy that does not come to wait. -/
def Direct : Phase → Prop
  | .observe _ => False
  | .look .. => False
  | .count .. => False
  | .drowse _ => False
  | .asleep _ => False
  | _ => True

/-- Whether a call of the policy is inside the wait. -/
def isAsleep : Phase → Bool
  | .asleep _ => true
  | _ => false

variable {b : Board} {policy : Policy} {full : Bool} {phase phase' : Phase}

theorem scanned_of_sits {g : Nat} (h : phase.Sits g) : phase.Scanned g := by
  cases phase <;> first | exact h | exact h.elim

theorem noted?_of_scanned {g : Nat} (h : phase.Scanned g) : phase.noted? = some g := by
  cases phase <;> first | exact congrArg some h | exact h.elim

theorem counts_of_counted? {g small : Nat} (h : phase.counted? = some (g, small)) :
    phase.Counts g := by
  cases phase with
  | count waited observed rest counted =>
    obtain ⟨rfl, -⟩ := Prod.mk.inj (Option.some.inj h)
    exact ⟨waited, rest, counted, rfl⟩
  | _ => contradiction

theorem direct_advances (h : Advances b policy full phase phase') (hdirect : phase.Direct) :
    phase'.Direct := by
  cases h with
  | wake => cases policy <;> trivial
  | survey => trivial
  | inspect => trivial
  | defer => trivial
  | everything => trivial
  | run => trivial
  | content => trivial
  | _ => exact hdirect.elim

/-- A call of the policy goes inside the wait from its entrance. -/
theorem isAsleep_advances (h : Advances b policy full phase phase')
    (hphase : ∀ g, phase ≠ .drowse g) : phase'.isAsleep = false := by
  cases h with
  | wake => cases policy <;> rfl
  | counted =>
    rename_i waited observed small rest hfew
    cases waited <;> rfl
  | sleep => exact absurd rfl (hphase _)
  | _ => rfl

end Phase

theorem Task.isAsleep_thinking (call : Call) :
    (Task.consult (.thinking call)).isAsleep = call.phase.isAsleep := by
  obtain ⟨policy, full, phase⟩ := call
  cases phase <;> rfl

/-- A step of a call of the policy counts it as waiting just while it is inside the wait. -/
theorem Call.waiting_step {b b' : Board} {c c' : Call} (h : c.step b = some (b', c'))
    (hinside : c.phase.isAsleep = true → 0 < b.tracker.waiting) :
    b'.tracker.waiting + c.phase.isAsleep.toNat =
      b.tracker.waiting + c'.phase.isAsleep.toNat := by
  have hadvances := Phase.advances_of_step h
  obtain ⟨policy, full, phase⟩ := c
  have hsame : b'.tracker.waiting = b.tracker.waiting → phase.isAsleep = false →
      (∀ g, phase ≠ .drowse g) → b'.tracker.waiting + phase.isAsleep.toNat =
        b.tracker.waiting + c'.phase.isAsleep.toNat := by
    intro hwaiting hphase hentrance
    rw [hwaiting, hphase, Phase.isAsleep_advances hadvances hentrance]
  cases phase with
  | drowse observed =>
    simp only [step] at h
    split at h
    · obtain ⟨rfl, rfl⟩ := Prod.mk.inj (Option.some.inj h)
      rfl
    · obtain ⟨rfl, rfl⟩ := Prod.mk.inj (Option.some.inj h)
      rfl
  | asleep observed =>
    simp only [step] at h
    split at h
    · contradiction
    · obtain ⟨rfl, rfl⟩ := Prod.mk.inj (Option.some.inj h)
      exact Nat.sub_add_cancel (hinside rfl)
  | count waited observed rest small =>
    simp only [step, Option.some.injEq, Prod.mk.injEq] at h
    obtain ⟨rfl, -⟩ := h
    obtain ⟨metrics, heq⟩ := stepCount_board b (limits policy).1 (limits policy).2 waited observed
      rest small
    exact hsame (by rw [heq]) rfl (by simp)
  | inspect listed rest =>
    refine hsame ?_ rfl (by simp)
    cases rest with
    | nil =>
      obtain ⟨rfl, -⟩ := Prod.mk.inj (Option.some.inj h)
      rfl
    | cons first rest =>
      simp only [step] at h
      split at h
      · obtain ⟨rfl, -⟩ := Prod.mk.inj (Option.some.inj h)
        rfl
      · obtain ⟨rfl, -⟩ := Prod.mk.inj (Option.some.inj h)
        rfl
  | ordered order => simp [step] at h
  | finished answer => simp [step] at h
  | _ =>
    obtain ⟨rfl, -⟩ := Prod.mk.inj (Option.some.inj h)
    exact hsame rfl rfl (by simp)

def Consultation.Direct : Consultation → Prop
  | .thinking call => call.phase.Direct
  | .scheduling .. => True

/-- A merge whose call of the policy does not come to wait. -/
def Job.Direct (job : Job) : Prop :=
  match job.phase with
  | .consult k => k.Direct
  | _ => True

def Thread.Direct : Thread → Prop
  | .call _ => True
  | .merge job => job.Direct

/-- Where the call of the policy stands that a client is at. -/
def Task.phase? : Task → Option Phase
  | .consult (.thinking call) => some call.phase
  | _ => none

namespace Store

variable {s s' t : Store} {new : List Job} {thread thread' : Thread}

theorem direct_consults {k k' : Consultation} (h : s.Consults k s' k' new) (hdirect : k.Direct) :
    k'.Direct := by
  cases h with
  | think hstep => exact Phase.direct_advances (Phase.advances_of_step hstep) hdirect
  | order => trivial
  | schedule => trivial
  | reply =>
    rename_i call answer
    obtain ⟨metrics, result, hreply⟩ := Call.reply_frame s.board call answer
    rw [hreply]
    trivial

/-- No merge comes to wait in its call of the policy. -/
theorem direct_acts (h : s.Acts thread s' thread' new) (hdirect : thread.Direct) :
    (∀ left ∈ thread'.remains, left.Direct) ∧ ∀ job ∈ new, Thread.Direct (.merge job) := by
  have hnew : ∀ job ∈ new, Thread.Direct (.merge job) := by
    intro job hjob
    rcases orders_acts h with rfl | ⟨all, members, -, rfl, -⟩
    · contradiction
    · rw [List.mem_singleton.1 hjob]
      trivial
  refine ⟨fun left hleft => ?_, hnew⟩
  rw [mem_remains hleft]
  cases h with
  | call => trivial
  | merge hmerges =>
    cases hmerges with
    | readFails =>
      rename_i members f
      cases f <;> trivial
    | buildFails =>
      rename_i members serial tuples files f
      cases f <;> trivial
    | consult hstep => exact direct_consults hstep hdirect
    | _ => trivial

/-- A merge is never counted as waiting. -/
theorem waiting_merges {job : Job} {phase : Job.Phase} (h : s.Merges job s' phase new)
    (hdirect : job.Direct) : s'.board.tracker.waiting = s.board.tracker.waiting := by
  cases h with
  | consult hstep =>
    cases hstep with
    | think hstep =>
      rename_i members call call' board
      have hphase : ∀ {phase : Phase}, phase.Direct → phase.isAsleep = false := by
        intro phase hphase
        cases phase with
        | asleep g => exact hphase.elim
        | _ => rfl
      have hnext := Phase.direct_advances (Phase.advances_of_step hstep) hdirect
      have hstay := Call.waiting_step hstep fun hasleep =>
        nomatch (hphase hdirect).symm.trans hasleep
      rwa [hphase hdirect, hphase hnext] at hstay
    | schedule hphase hstep => rw [tracker_schedules hstep]
    | reply =>
      rename_i members call answer
      obtain ⟨metrics, result, hreply⟩ := Call.reply_frame s.board call answer
      rw [hreply]
    | order => rfl
  | _ => rfl

/-- A client is counted as waiting just while it is inside a wait. -/
theorem waiting_stepTask {task task' : Task} (h : s.stepTask task = some (s', task'))
    (hinside : task.isAsleep = true → 0 < s.board.tracker.waiting) :
    s'.board.tracker.waiting + task.isAsleep.toNat =
      s.board.tracker.waiting + task'.isAsleep.toNat := by
  have hstart : ∀ (full : Bool) (c : Component),
      (Task.consult (s.consult full c false)).isAsleep = false := by
    intro full c
    obtain ⟨hnoted, -⟩ := Call.noted?_start s.policy full c
    rw [consult, Task.isAsleep_thinking]
    cases hphase : (Call.start s.policy full c false).phase with
    | asleep g => rw [hphase] at hnoted; contradiction
    | _ => rfl
  obtain ⟨new, hcalls⟩ := calls_of_stepTask h
  cases hcalls with
  | insert htask => rcases htask with rfl | rfl <;> rfl
  | report => rw [hstart]; rfl
  | requested htask => rcases htask with rfl | rfl <;> rfl
  | newest => rw [hstart]; rfl
  | consulted hanswer =>
    rename_i k answer
    have hidle : (Task.consult k).isAsleep = false := by
      cases k with
      | thinking call =>
        obtain ⟨policy, full, phase⟩ := call
        cases phase with
        | asleep g => contradiction
        | _ => rfl
      | scheduling call phase => rfl
    rw [hidle]
    rfl
  | consult hstep =>
    cases hstep with
    | think hstep =>
      rw [Task.isAsleep_thinking] at hinside ⊢
      rw [Task.isAsleep_thinking]
      exact Call.waiting_step hstep hinside
    | order horder =>
      rename_i call order
      obtain ⟨policy, full, phase⟩ := call
      cases phase with
      | ordered given => rfl
      | _ => contradiction
    | schedule hphase hstep => rw [tracker_schedules hstep]; rfl
    | reply =>
      rename_i call answer
      obtain ⟨metrics, result, hreply⟩ := Call.reply_frame s.board call answer
      rw [hreply]
      rfl
  | draining htask => rcases htask with rfl | rfl <;> rfl
  | drowse =>
    simp only [stepTask] at h
    split at h
    · obtain ⟨hs, rfl⟩ := Prod.mk.inj (Option.some.inj h)
      rw [← hs]
      rfl
    · obtain ⟨hs, rfl⟩ := Prod.mk.inj (Option.some.inj h)
      rw [← hs]
      rfl
  | wake =>
    simp only [stepTask] at h
    split at h
    · contradiction
    · obtain ⟨hs, -⟩ := Prod.mk.inj (Option.some.inj h)
      rw [← hs]
      exact Nat.sub_add_cancel (hinside rfl)
  | _ => rfl

/-- The count of those who wait is the number of clients inside a wait. -/
def Tells (s : Store) : Prop :=
  s.board.tracker.waiting = s.clients.countP Task.isAsleep ∧ ∀ thread ∈ s.threads, thread.Direct

theorem Tells.turn {τ : Turn} (h : s.Tells) (hproper : τ.Proper) (hturn : s.turn τ = some t) :
    t.Tells := by
  refine ⟨?_, forall_threads_turn direct_acts (fun _ _ => trivial) hproper hturn h.2⟩
  obtain ⟨hwaiting, hdirect⟩ := h
  cases τ with
  | action a =>
    cases a with
    | call task =>
      obtain rfl := Option.some.inj hturn
      have hbegins : task.Begins := hproper
      have hawake : task.isAsleep = false := by cases hbegins <;> rfl
      simp [hwaiting, hawake]
    | client i =>
      obtain ⟨task, s', task', htask, htaken, rfl⟩ := client_eq_some_iff.1 hturn
      have hstay := waiting_stepTask htaken fun hasleep =>
        hwaiting ▸ List.countP_pos_iff.2 ⟨task, List.mem_of_getElem? htask, hasleep⟩
      have hset := countP_set_add Task.isAsleep htask task'
      show s'.board.tracker.waiting = (s'.clients.set i task').countP Task.isAsleep
      rw [(stepTask_waiting htaken).1]
      omega
    | take i =>
      obtain ⟨pool, -, rfl⟩ := Option.map_eq_some_iff.1 hturn
      exact hwaiting
    | work i =>
      obtain ⟨job, s', job', hjob, htaken, rfl⟩ := work_eq_some_iff.1 hturn
      obtain ⟨phase, new, rfl, hmerges⟩ := merges_of_stepJob htaken
      obtain ⟨others, hothers⟩ := Pool.exists_jobs_perm hjob
      have hmem : Thread.merge job ∈ s.threads := List.mem_append_right _
        (List.mem_map_of_mem (hothers.mem_iff.2 List.mem_cons_self))
      have hstay := waiting_merges hmerges (hdirect _ hmem)
      show s'.board.tracker.waiting = s'.clients.countP Task.isAsleep
      rw [hstay, (stepJob_waiting htaken).1, hwaiting]
    | reap serial =>
      simp only [Store.turn, step, reap, bind, Option.bind_eq_some_iff, pure, Option.some.injEq]
        at hturn
      obtain ⟨c, -, name, -, rfl⟩ := hturn
      exact hwaiting
    | shutdown =>
      obtain rfl := Option.some.inj hturn
      exact hwaiting
  | files d =>
    obtain rfl := Option.some.inj hturn
    exact hwaiting
  | failMerge i f =>
    obtain ⟨job, -, -, rfl⟩ := failMerge_eq_some_iff.1 hturn
    exact hwaiting
  | failFlush i f =>
    obtain ⟨hflush, -, rfl⟩ := failFlush_eq_some_iff.1 hturn
    exact hwaiting.trans (countP_set_add Task.isAsleep hflush (.returned (.error f))).symm

theorem Tells.course {turns : List Turn} (h : s.Tells) (hproper : ∀ τ ∈ turns, τ.Proper)
    (hcourse : s.course turns = some t) : t.Tells := by
  induction turns generalizing s with
  | nil =>
    obtain rfl := Option.some.inj hcourse
    exact h
  | cons τ rest ih =>
    obtain ⟨u, hturn, hrest⟩ := Option.bind_eq_some_iff.1 hcourse
    rw [List.forall_mem_cons] at hproper
    exact ih (h.turn hproper.1 hturn) hproper.2 hrest

/-- Where a client stands behind a turn: where it stood, unless its flush failed, or behind a step
of its own. -/
theorem client_turn {τ : Turn} {i : Nat} {task : Task} (h : s.turn τ = some t)
    (htask : s.clients[i]? = some task) :
    t.clients[i]? = some task ∨
      (task = .flush ∧ ∃ f, t.clients[i]? = some (.returned (.error f))) ∨
      τ = .action (.client i) ∧ ∃ s' task', s.stepTask task = some (s', task') ∧
        t.board = s'.board ∧ t.clients[i]? = some task' := by
  have hi := (List.getElem?_eq_some_iff.1 htask).1
  cases τ with
  | action a =>
    cases a with
    | call first =>
      obtain rfl := Option.some.inj h
      exact .inl ((List.getElem?_append_left hi).trans htask)
    | client j =>
      obtain ⟨before, s', after, hbefore, hstep, rfl⟩ := client_eq_some_iff.1 h
      rw [(stepTask_waiting hstep).1]
      by_cases hij : j = i
      · subst hij
        obtain rfl := Option.some.inj (hbefore.symm.trans htask)
        exact .inr (.inr ⟨rfl, s', after, hstep, rfl, List.getElem?_set_self hi⟩)
      · exact .inl ((List.getElem?_set_ne hij).trans htask)
    | take j =>
      obtain ⟨pool, -, rfl⟩ := Option.map_eq_some_iff.1 h
      exact .inl htask
    | work j =>
      obtain ⟨job, s', job', -, hstep, rfl⟩ := work_eq_some_iff.1 h
      rw [(stepJob_waiting hstep).1]
      exact .inl htask
    | reap serial =>
      simp only [turn, step, reap, bind, Option.bind_eq_some_iff, pure, Option.some.injEq] at h
      obtain ⟨c, -, name, -, rfl⟩ := h
      exact .inl htask
    | shutdown =>
      obtain rfl := Option.some.inj h
      exact .inl htask
  | files d =>
    obtain rfl := Option.some.inj h
    exact .inl htask
  | failMerge j f =>
    obtain ⟨job, -, -, rfl⟩ := failMerge_eq_some_iff.1 h
    exact .inl htask
  | failFlush j f =>
    obtain ⟨hflush, -, rfl⟩ := failFlush_eq_some_iff.1 h
    by_cases hij : j = i
    · subst hij
      exact .inr (.inl ⟨Option.some.inj (htask.symm.trans hflush), f, List.getElem?_set_self hi⟩)
    · exact .inl ((List.getElem?_set_ne hij).trans htask)

/-- Where the call of the policy stands that a client is at. -/
def phase? (s : Store) (i : Nat) : Option Phase := s.clients[i]?.bind Task.phase?

theorem phase?_eq_some_iff {i : Nat} {phase : Phase} :
    s.phase? i = some phase ↔ ∃ policy full,
      s.clients[i]? = some (.consult (.thinking ⟨policy, full, phase⟩)) := by
  constructor
  · intro h
    obtain ⟨task, htask, hphase⟩ := Option.bind_eq_some_iff.1 h
    rw [htask]
    cases task with
    | consult k =>
      cases k with
      | thinking call =>
        obtain ⟨policy, full, phase'⟩ := call
        obtain rfl : phase' = phase := Option.some.inj hphase
        exact ⟨policy, full, rfl⟩
      | scheduling call phase' => contradiction
    | _ => contradiction
  · rintro ⟨policy, full, htask⟩
    rw [phase?, htask]
    rfl

/-- Where a producer stands behind a turn that may come to wait. -/
theorem phase_turn {τ : Turn} {i : Nat} {phase : Phase} (h : s.turn τ = some t)
    (hphase : s.phase? i = some phase) (hindirect : ¬ phase.Direct) :
    t.phase? i = some phase ∨ τ = .action (.client i) ∧ ∃ call call' : Call, call.phase = phase ∧
      s.clients[i]? = some (.consult (.thinking call)) ∧
      call.step s.board = some (t.board, call') ∧ t.phase? i = some call'.phase := by
  obtain ⟨policy, full, htask⟩ := phase?_eq_some_iff.1 hphase
  rcases client_turn h htask with hsame | ⟨hflush, -⟩ | ⟨hτ, s', task', hstep, hboard, htask'⟩
  · exact .inl (phase?_eq_some_iff.2 ⟨policy, full, hsame⟩)
  · contradiction
  · refine .inr ⟨hτ, ⟨policy, full, phase⟩, ?_⟩
    have hthinks : (Call.mk policy full phase).answer? = none ∧
        (Call.mk policy full phase).order? = none := by
      cases phase with
      | ordered => exact absurd trivial hindirect
      | finished => exact absurd trivial hindirect
      | _ => exact ⟨rfl, rfl⟩
    simp only [stepTask, Consultation.answer?, hthinks.1, stepConsultation, hthinks.2,
      Option.map_map] at hstep
    obtain ⟨⟨board, call'⟩, hcall, heq⟩ := Option.map_eq_some_iff.1 hstep
    obtain ⟨rfl, rfl⟩ := Prod.mk.inj heq
    refine ⟨call', rfl, htask, ?_, ?_⟩
    · rw [hboard]
      exact hcall
    · rw [phase?, htask']
      rfl

/-- A producer takes the list there is, having noted a generation. -/
def Scans (s : Store) (i observed : Nat) (t : Store) : Prop :=
  ∃ waited, s.phase? i = some (.look waited observed) ∧ s.step (.client i) = some t ∧
    t.phase? i = some (.count waited observed s.board.roster.newestFirst 0)

/-- A producer takes the list there is in a course. -/
def ScansIn (s : Store) (i observed : Nat) (turns : List Turn) : Prop :=
  ∃ first last v w, turns = first ++ .action (.client i) :: last ∧ s.course first = some v ∧
    v.Scans i observed w

theorem ScansIn.cons {τ : Turn} {rest : List Turn} {i observed : Nat}
    (hturn : s.turn τ = some t) (h : t.ScansIn i observed rest) :
    s.ScansIn i observed (τ :: rest) := by
  obtain ⟨first, last, v, w, rfl, hcourse, hscans⟩ := h
  refine ⟨τ :: first, last, v, w, rfl, ?_, hscans⟩
  rw [course, hturn]
  exact hcourse

/-- A producer that has noted the generation takes the list next. -/
theorem scans_of_look {i observed : Nat} {waited : Bool} {τ : Turn} (h : s.turn τ = some t)
    (hlook : s.phase? i = some (.look waited observed)) :
    t.phase? i = some (.look waited observed) ∨
      τ = .action (.client i) ∧ s.Scans i observed t := by
  refine (phase_turn h hlook id).imp id ?_
  rintro ⟨rfl, ⟨policy, full, phase⟩, call', rfl, -, hcall, hphase⟩
  obtain ⟨-, rfl⟩ := Prod.mk.inj (Option.some.inj hcall)
  exact ⟨rfl, waited, hlook, h, hphase⟩

/-- A producer that has noted the generation has taken the list by the time it stands elsewhere. -/
theorem scansIn_of_look {turns : List Turn} {i observed : Nat} {waited : Bool}
    (h : s.course turns = some t) (hlook : s.phase? i = some (.look waited observed))
    (hleft : t.phase? i ≠ some (.look waited observed)) : s.ScansIn i observed turns := by
  induction turns generalizing s with
  | nil =>
    obtain rfl := Option.some.inj h
    exact absurd hlook hleft
  | cons τ rest ih =>
    obtain ⟨u, hturn, hrest⟩ := Option.bind_eq_some_iff.1 h
    rcases scans_of_look hturn hlook with hstays | ⟨rfl, hscans⟩
    · exact (ih hrest hstays).cons hturn
    · exact ⟨[], rest, s, u, rfl, rfl, hscans⟩

/-- A producer that counts before every turn of a course does not take the list in it. -/
theorem not_scansIn_of_counted? {turns : List Turn} {i observed : Nat}
    (h : ∀ k < turns.length, (((s.course (turns.take k)).bind fun v => v.phase? i).bind
      Phase.counted?).isSome) : ¬ s.ScansIn i observed turns := by
  rintro ⟨first, last, v, w, rfl, hv, waited, hlook, -⟩
  have hcounts := h first.length (by simp)
  rw [List.take_left, hv, Option.bind_some, hlook] at hcounts
  contradiction

/-- A producer finds that the list it took, having noted a generation, is within the tolerance. It
does not come to wait, whatever has happened since it took the list. -/
def Tolerates (s : Store) (i observed : Nat) (t : Store) : Prop :=
  ∃ policy full waited rest small, small ≤ (Call.limits policy).2 ∧
    s.clients[i]? = some (.consult (.thinking ⟨policy, full, .count waited observed rest small⟩)) ∧
    s.step (.client i) = some t ∧
    t.phase? i = some (if waited then .finished (.ok ()) else .survey)

/-- A producer finds in a course that the list it took is within the tolerance. -/
def ToleratesIn (s : Store) (i observed : Nat) (turns : List Turn) : Prop :=
  ∃ first last v w, turns = first ++ .action (.client i) :: last ∧ s.course first = some v ∧
    v.Tolerates i observed w

theorem ToleratesIn.cons {τ : Turn} {rest : List Turn} {i observed : Nat}
    (hturn : s.turn τ = some t) (h : t.ToleratesIn i observed rest) :
    s.ToleratesIn i observed (τ :: rest) := by
  obtain ⟨first, last, v, w, rfl, hcourse, htolerates⟩ := h
  refine ⟨τ :: first, last, v, w, rfl, ?_, htolerates⟩
  rw [course, hturn]
  exact hcourse

/-- What has become of a producer that had taken the list when a notification came, where it stood
at `was`, having noted `g`. -/
inductive Rechecks (s : Store) (i g : Nat) (was : Phase) (turns : List Turn) (t : Store) :
    Prop where
  /-- It has taken the list anew. -/
  | again {observed : Nat} (h : s.ScansIn i observed turns)
  /-- It is about to take the list anew. -/
  | about {now : Phase} (hnow : t.phase? i = some now) (h : now.Rescans)
  /-- It is at the list it has, and will not be held at the wait. -/
  | released {now : Phase} (hnow : t.phase? i = some now) (hscanned : now.Scanned g)
      (hmoved : t.board.tracker.generation ≠ g) (hinside : now = .asleep g → was = .asleep g)
  /-- It was counting the list it had, from before the notification, and found it within the
  tolerance. -/
  | tolerated (hwas : was.Counts g) (h : s.ToleratesIn i g turns)

theorem Rechecks.cons {τ : Turn} {rest : List Turn} {i g : Nat} {was : Phase} {u : Store}
    (hturn : s.turn τ = some u) (h : u.Rechecks i g was rest t) :
    s.Rechecks i g was (τ :: rest) t := by
  cases h with
  | again h => exact .again (h.cons hturn)
  | about hnow h => exact .about hnow h
  | released hnow hscanned hmoved hinside => exact .released hnow hscanned hmoved hinside
  | tolerated hwas h => exact .tolerated hwas (h.cons hturn)

/-- A producer on its way back to the list, from where it stood at `was`. -/
def Returns (g : Nat) (was now : Phase) : Prop :=
  now.Scanned g ∧ (now = .asleep g → was = .asleep g) ∧ (now.Counts g → was.Counts g) ∨ now.Rescans

/-- Once the generation has moved on, a step of a producer that has taken the list brings it on its
way back to the list, unless it finds the list within the tolerance. -/
theorem returns_turn {i g : Nat} {was now : Phase} {τ : Turn} (h : s.turn τ = some t)
    (hmoved : s.board.tracker.generation ≠ g) (hnow : s.phase? i = some now)
    (hreturns : Returns g was now) :
    (∃ next, t.phase? i = some next ∧ Returns g was next) ∨
      τ = .action (.client i) ∧ ((∃ observed, s.Scans i observed t) ∨
        was.Counts g ∧ s.Tolerates i g t) := by
  have hindirect : ¬ now.Direct := by
    rcases hreturns with ⟨hscanned, -, -⟩ | hrescans
    · cases now <;> first | exact id | exact hscanned.elim
    · cases now <;> first | exact id | exact hrescans.elim
  rcases phase_turn h hnow hindirect with hstays | ⟨rfl, call, call', rfl, htask, hcall, hnext⟩
  · exact .inl ⟨now, hstays, hreturns⟩
  · have hadvances := Phase.advances_of_step hcall
    obtain ⟨policy, full, phase⟩ := call
    cases phase with
    | observe waited =>
      obtain ⟨-, rfl⟩ := Prod.mk.inj (Option.some.inj hcall)
      exact .inl ⟨_, hnext, .inr trivial⟩
    | look waited observed =>
      obtain ⟨-, rfl⟩ := Prod.mk.inj (Option.some.inj hcall)
      exact .inr ⟨rfl, .inl ⟨observed, waited, hnow, h, hnext⟩⟩
    | count waited observed rest small =>
      obtain ⟨rfl, -, hwas⟩ := hreturns.resolve_right id
      have hcounts := hwas ⟨waited, rest, small, rfl⟩
      obtain ⟨policy', full', phase'⟩ := call'
      cases hadvances with
      | count => exact .inl ⟨_, hnext, .inl ⟨rfl, nofun, fun _ => hcounts⟩⟩
      | counted hfew =>
        have htolerates : s.Tolerates i observed t :=
          ⟨policy, full, waited, rest, small, hfew, htask, h, hnext⟩
        exact .inr ⟨rfl, .inr ⟨hcounts, htolerates⟩⟩
      | block => exact .inl ⟨_, hnext, .inl ⟨rfl, nofun, fun _ => hcounts⟩⟩
    | drowse observed =>
      obtain ⟨rfl, -, -⟩ := hreturns.resolve_right id
      simp only [Call.step, Tracker.holds, hmoved, decide_false, Bool.false_eq_true, if_false]
        at hcall
      obtain ⟨-, rfl⟩ := Prod.mk.inj (Option.some.inj hcall)
      exact .inl ⟨_, hnext, .inr trivial⟩
    | asleep observed =>
      obtain ⟨rfl, -, -⟩ := hreturns.resolve_right id
      simp only [Call.step, Tracker.holds, hmoved, decide_false, Bool.false_eq_true, if_false]
        at hcall
      obtain ⟨-, rfl⟩ := Prod.mk.inj (Option.some.inj hcall)
      exact .inl ⟨_, hnext, .inr trivial⟩
    | _ => exact absurd trivial hindirect

/-- Once the generation has moved on for good, a producer that had taken the list takes it anew
before it waits, and before it returns, unless it finds the list it has within the tolerance. -/
theorem rechecks_course {i g : Nat} {was now : Phase} {turns : List Turn}
    (h : s.course turns = some t)
    (hmoved : ∀ first last v, turns = first ++ last → s.course first = some v →
      v.board.tracker.generation ≠ g)
    (hnow : s.phase? i = some now) (hreturns : Returns g was now) :
    s.Rechecks i g was turns t := by
  induction turns generalizing s now with
  | nil =>
    obtain rfl := Option.some.inj h
    rcases hreturns with ⟨hscanned, hinside, -⟩ | hrescans
    · exact .released hnow hscanned (hmoved [] [] s rfl rfl) hinside
    · exact .about hnow hrescans
  | cons τ rest ih =>
    obtain ⟨u, hturn, hrest⟩ := Option.bind_eq_some_iff.1 h
    have hlater : ∀ first last v, rest = first ++ last → u.course first = some v →
        v.board.tracker.generation ≠ g := by
      intro first last v hsplit hcourse
      refine hmoved (τ :: first) last v (congrArg (List.cons τ) hsplit) ?_
      rw [course, hturn]
      exact hcourse
    rcases returns_turn hturn (hmoved [] _ s rfl rfl) hnow hreturns with
      ⟨next, hnext, hback⟩ | ⟨rfl, ⟨observed, hscans⟩ | ⟨hwas, htolerates⟩⟩
    · exact (ih hrest hlater hnext hback).cons hturn
    · exact .again ⟨[], rest, s, u, rfl, rfl, hscans⟩
    · exact .tolerated hwas ⟨[], rest, s, u, rfl, rfl, htolerates⟩

/-- A client inside a wait, for a generation that has passed, can go on. -/
theorem exists_step_of_released {i g : Nat} {task : Task} (htask : s.clients[i]? = some task)
    (hasleep : task.isAsleep = true) (hobserved : task.observed? = some g)
    (hmoved : s.board.tracker.generation ≠ g) :
    ∃ t task', s.step (.client i) = some t ∧ t.clients[i]? = some task' ∧
      task'.isAsleep = false := by
  have hi := (List.getElem?_eq_some_iff.1 htask).1
  have hfree : s.board.tracker.holds g = false := decide_eq_false hmoved
  obtain ⟨s', task', hstep, hclients, hawake⟩ : ∃ s' task', s.stepTask task = some (s', task') ∧
      s'.clients = s.clients ∧ task'.isAsleep = false := by
    cases task with
    | asleep observed =>
      obtain rfl := Option.some.inj hobserved
      rw [stepTask, hfree]
      exact ⟨_, _, rfl, rfl, rfl⟩
    | consult k =>
      cases k with
      | thinking call =>
        obtain ⟨policy, full, phase⟩ := call
        cases phase with
        | asleep observed =>
          obtain rfl := Option.some.inj hobserved
          refine ⟨{ s with board := { s.board with tracker := s.board.tracker.leave } },
            .consult (.thinking ⟨policy, full, .observe true⟩), ?_, rfl, rfl⟩
          simp only [stepTask, Consultation.answer?, Call.answer?, stepConsultation, Call.order?,
            Call.step, hfree, Bool.false_eq_true, if_false, Option.map_some]
        | _ => contradiction
      | scheduling call phase => contradiction
    | _ => contradiction
  refine ⟨{ s' with clients := s'.clients.set i task' }, task',
    client_eq_some_iff.2 ⟨task, s', task', htask, hstep, rfl⟩, ?_, hawake⟩
  rw [hclients]
  exact List.getElem?_set_self hi

/-- Whoever is inside a wait has noted a generation. -/
theorem exists_observed {task : Task} (h : task.isAsleep = true) :
    ∃ g, task.observed? = some g := by
  cases task with
  | asleep g => exact ⟨g, rfl⟩
  | consult k =>
    cases k with
    | thinking call =>
      obtain ⟨policy, full, phase⟩ := call
      cases phase with
      | asleep g => exact ⟨g, rfl⟩
      | _ => contradiction
    | scheduling call phase => contradiction
  | _ => contradiction

/-- A notification leaves a producer where it is that has taken the list. -/
theorem phase_of_notification {τ : Turn} {i g : Nat} {phase : Phase} (h : s.turn τ = some t)
    (hnotifies : 0 < s.notifications τ) (hphase : s.phase? i = some phase)
    (hscanned : phase.Scanned g) : t.phase? i = some phase := by
  have hindirect : ¬ phase.Direct := by
    cases phase <;> first | exact id | exact hscanned.elim
  refine (phase_turn h hphase hindirect).resolve_right ?_
  rintro ⟨rfl, -⟩
  obtain ⟨policy, full, htask⟩ := phase?_eq_some_iff.1 hphase
  rw [notifications, htask] at hnotifies
  cases phase with
  | wake => exact hscanned
  | _ => contradiction

/-- Where the generation stands in the middle of a course, and that it does not run out. -/
theorem generation_between {first last : List Turn} (hzero : s.board.tracker.generation = 0)
    (hfew : s.sum notifications (first ++ last) < Numeral.word) (h : s.course first = some t) :
    t.board.tracker.generation = s.sum notifications first ∧
      t.board.tracker.generation + t.sum notifications last < Numeral.word := by
  rw [sum_append notifications h] at hfew
  have hgeneration := generation_course h (by omega)
  omega

/-- From a notification on, the generation is higher than it was before. -/
theorem generation_lt_of_notification {n v : Store} {τ : Turn} {first last : List Turn}
    (hturn : s.turn τ = some n) (hnotifies : 0 < s.notifications τ)
    (hcourse : n.course first = some v)
    (hfew : s.board.tracker.generation + s.sum notifications (τ :: (first ++ last)) <
      Numeral.word) : s.board.tracker.generation < v.board.tracker.generation := by
  rw [sum_cons notifications hturn, sum_append notifications hcourse] at hfew
  have hnext := generation_turn hturn (by omega)
  have hlater := generation_course hcourse (by omega)
  omega

/-- A producer held at the wait took its list after the last notification. Each notification lets go
all that are inside a wait, and makes a producer that has taken its list take it anew, unless it
finds that list within the tolerance. -/
theorem no_wakeup_lost {options : Options} {policy : Policy} {codec : Codec} {files : Directory}
    {components : List Component} {s t : Store} {turns : List Turn}
    (hopen : ofComponents options policy codec files components = .ok s)
    (hproper : ∀ τ ∈ turns, τ.Proper) (hcourse : s.course turns = some t)
    (hfew : s.sum notifications turns < Numeral.word) :
    t.board.tracker.generation = s.sum notifications turns ∧
    t.board.tracker.waiting = t.clients.countP Task.isAsleep ∧
    (∀ (i g : Nat) (phase : Phase), t.phase? i = some phase → phase.Sits g →
      t.board.tracker.generation = g →
      ∃ before since noted, turns = before ++ since ∧ s.course before = some noted ∧
        noted.Notes i g ∧ noted.ScansIn i g since ∧ noted.sum notifications since = 0) ∧
    ∀ before τ since m n, turns = before ++ τ :: since → s.course before = some m →
      m.turn τ = some n → 0 < m.notifications τ →
      (∀ (i : Nat) (task : Task), m.clients[i]? = some task → task.isAsleep = true →
        t.clients[i]? = some task →
        ∃ u task', t.step (.client i) = some u ∧ u.clients[i]? = some task' ∧
          task'.isAsleep = false) ∧
      ∀ (i g : Nat) (phase : Phase), m.phase? i = some phase → phase.Scanned g →
        n.Rechecks i g phase since t := by
  obtain ⟨hthreads, htracker, -, -⟩ := fresh_ofComponents hopen
  have hclients := clients_ofComponents hopen
  have hzero : s.board.tracker.generation = 0 := by rw [htracker]
  have htells : s.Tells := by
    refine ⟨by rw [htracker, hclients]; rfl, ?_⟩
    simp [hthreads]
  refine ⟨?_, (htells.course hproper hcourse).1, ?_, ?_⟩
  · rw [generation_course hcourse (by omega), hzero, Nat.zero_add]
  · intro i g phase hphase hsits hheld
    obtain ⟨policy, full, htask⟩ := phase?_eq_some_iff.1 hphase
    have hnoted := Phase.noted?_of_scanned (Phase.scanned_of_sits hsits)
    obtain ⟨before, since, noted, rfl, hbefore, hsince, hnotes⟩ :=
      exists_notes hclients hproper hcourse htask hnoted
    have hnone := generation_course hsince (generation_between hzero hfew hbefore).2
    refine ⟨before, since, noted, rfl, hbefore, hnotes, ?_, ?_⟩
    · obtain ⟨⟨task, hlooking, policy', full', waited, rfl⟩, -⟩ := hnotes
      refine scansIn_of_look hsince (phase?_eq_some_iff.2 ⟨policy', full', hlooking⟩) ?_
      rw [hphase]
      rintro ⟨⟩
      exact hsits
    · have hsame := hnotes.2
      omega
  · intro before τ since m n hsplit hm hn hnotifies
    subst hsplit
    have hsince : n.course since = some t := by
      rw [course_append, hm, Option.bind_some, course, hn] at hcourse
      exact hcourse
    obtain ⟨hnow, hlasts⟩ := generation_between hzero hfew hm
    have hmoved : ∀ first last v, since = first ++ last → n.course first = some v →
        m.board.tracker.generation < v.board.tracker.generation := by
      rintro first last v rfl hv
      exact generation_lt_of_notification hn hnotifies hv hlasts
    have htimely : m.Timely := by
      refine (timely_of_clients hclients).course (fun τ hτ => hproper τ ?_) hm (by omega)
      exact List.mem_append_left _ hτ
    constructor
    · intro i task htask hasleep hstill
      obtain ⟨g, hobserved⟩ := exists_observed hasleep
      have hpast := htimely i task g htask hobserved
      have hgone := hmoved since [] t (List.append_nil since).symm hsince
      exact exists_step_of_released hstill hasleep hobserved (by omega)
    · intro i g phase hphase hscanned
      obtain ⟨policy, full, htask⟩ := phase?_eq_some_iff.1 hphase
      have hpast := htimely i _ g htask (Phase.noted?_of_scanned hscanned)
      refine rechecks_course hsince (fun first last v hsplit hv => ?_)
        (phase_of_notification hn hnotifies hphase hscanned) (.inl ⟨hscanned, id, id⟩)
      have hgone := hmoved first last v hsplit hv
      omega

/-- On two small components, one of them tolerated, a client is held at the wait and has taken the
list. Where any two are merged, a merge that fails as it reads lets go a client that waits for it.
-/
theorem waiters_let_go :
    let small (stamp : Nat) : Component :=
      { serial := stamp, range := .single stamp, size := 80 }
    let held : List Turn := .action (.call .request) :: List.replicate 8 (.action (.client 0))
    let asked : List Action := .call .request :: List.replicate 15 (.client 0) ++ .call .drain ::
      List.replicate 3 (.client 1) ++ [.take 0]
    let failing : List Turn := asked.map .action ++
      .failMerge 0 (.error (.file .endOfFile)) :: List.replicate 5 (.action (.work 0))
    (∃ s t, ofComponents {} (.runs 100 1) (.plain [.varying]) {} [small 1, small 0] = .ok s ∧
      s.course held = some t ∧
      t.phase? 0 = some (.asleep 0) ∧ t.board.tracker.waiting = 1 ∧
      ∃ (since : List Turn) (noted : Store), noted.Notes 0 0 ∧ noted.ScansIn 0 0 since ∧
        noted.sum notifications since = 0) ∧
    ∃ (s t u : Store) (task : Task),
      ofComponents {} (.all 2) (.plain [.varying]) {} [small 1, small 0] = .ok s ∧
      s.course (failing ++ [.action (.work 0)]) = some t ∧
      t.board.tracker.waiting = 1 ∧ t.board.tracker.generation = 1 ∧
      t.step (.client 1) = some u ∧ u.clients[1]? = some task ∧ task.isAsleep = false := by
  intro small held asked failing
  constructor
  · obtain ⟨s, t, hopen, hcourse, hphase, hwaiting, hgeneration, hfew⟩ :
        ∃ s t, ofComponents {} (.runs 100 1) (.plain [.varying]) {} [small 1, small 0] = .ok s ∧
          s.course held = some t ∧ t.phase? 0 = some (.asleep 0) ∧ t.board.tracker.waiting = 1 ∧
          t.board.tracker.generation = 0 ∧ s.sum notifications held = 0 :=
      ⟨_, _, rfl, rfl, rfl, rfl, rfl, by decide +kernel⟩
    have hproper : ∀ τ ∈ held, τ.Proper :=
      List.forall_mem_cons.2 ⟨.request, List.forall_mem_replicate.2 (.inr trivial)⟩
    obtain ⟨-, -, hheld, -⟩ := no_wakeup_lost hopen hproper hcourse (by rw [hfew]; decide)
    obtain ⟨before, since, noted, -, -, hnotes, hscans, hnone⟩ :=
      hheld 0 0 _ hphase rfl hgeneration
    exact ⟨s, t, hopen, hcourse, hphase, hwaiting, since, noted, hnotes, hscans, hnone⟩
  · obtain ⟨s, hopen, hend⟩ : ∃ s,
        ofComponents {} (.all 2) (.plain [.varying]) {} [small 1, small 0] = .ok s ∧
        ((s.course failing).bind fun m => (m.turn (.action (.work 0))).map fun t =>
          (m.clients[1]?.map Task.isAsleep, m.notifications (.action (.work 0)),
            s.sum notifications (failing ++ [.action (.work 0)]), t.board.tracker)) =
          some (some true, 1, 1, ⟨1, 1⟩) :=
      ⟨_, rfl, by decide +kernel⟩
    obtain ⟨m, hm, hend⟩ := Option.bind_eq_some_iff.1 hend
    obtain ⟨t, hn, hend⟩ := Option.map_eq_some_iff.1 hend
    simp only [Prod.mk.injEq, Option.map_eq_some_iff] at hend
    obtain ⟨⟨task, htask, hasleep⟩, hnotifies, hfew, htracker⟩ := hend
    have hcourse : s.course (failing ++ [.action (.work 0)]) = some t :=
      course_concat_eq_some_iff.2 ⟨m, hm, hn⟩
    have hstill : t.clients[1]? = some task := by
      rcases client_turn hn htask with hstill | ⟨rfl, -⟩ | ⟨hown, -⟩
      · exact hstill
      · contradiction
      · exact nomatch hown
    have hasked : ∀ a ∈ asked, a.Proper := by
      simp only [asked, List.forall_mem_append, List.forall_mem_cons, List.forall_mem_replicate]
      exact ⟨⟨⟨.request, .inr trivial⟩, .drain, .inr trivial⟩, trivial, List.forall_mem_nil _⟩
    have hproper : ∀ τ ∈ failing ++ [.action (.work 0)], τ.Proper := by
      simp only [failing, List.forall_mem_append, List.forall_mem_cons, List.forall_mem_map,
        List.forall_mem_replicate]
      exact ⟨⟨hasked, trivial, .inr trivial⟩, trivial, List.forall_mem_nil _⟩
    obtain ⟨-, -, -, hnotified⟩ := no_wakeup_lost hopen hproper hcourse (by rw [hfew]; decide)
    obtain ⟨hreleased, -⟩ :=
      hnotified failing (.action (.work 0)) [] m t rfl hm hn (by rw [hnotifies]; decide)
    obtain ⟨u, task', hu, htask', hawake⟩ := hreleased 1 task htask hasleep hstill
    refine ⟨s, t, u, task', hopen, hcourse, ?_, ?_, hu, htask', hawake⟩
    · rw [htracker]
    · rw [htracker]

/-- Where both of two small components are tolerated, a client has taken the list of them when a
failed merge notifies. It goes on to schedule, and does not take the list anew. -/
theorem returns_on_older_list :
    let small (stamp : Nat) : Component :=
      { serial := stamp, range := .single stamp, size := 80 }
    let actions : List Action := [.call .request, .call .request] ++
      List.replicate 5 (.client 0) ++ List.replicate 20 (.client 1) ++ [.take 0]
    let before : List Turn := actions.map .action ++
      .failMerge 0 (.error (.file .endOfFile)) :: List.replicate 5 (.action (.work 0))
    let since : List Turn := List.replicate 3 (.action (.client 0))
    ∃ (s m n t : Store) (phase : Phase),
      ofComponents {} (.runs 100 2) (.plain [.varying]) {} [small 1, small 0] = .ok s ∧
      s.course before = some m ∧ m.phase? 0 = some phase ∧ phase.Counts 0 ∧
      m.turn (.action (.work 0)) = some n ∧ m.notifications (.action (.work 0)) = 1 ∧
      n.course since = some t ∧ t.phase? 0 = some .survey ∧
      ∀ observed, ¬ n.ScansIn 0 observed since := by
  intro small actions before since
  obtain ⟨s, hopen, hend⟩ : ∃ s,
      ofComponents {} (.runs 100 2) (.plain [.varying]) {} [small 1, small 0] = .ok s ∧
      ((s.course before).bind fun m => (m.turn (.action (.work 0))).bind fun n =>
        (n.course since).map fun t => ((m.phase? 0).map Phase.counted?,
          m.notifications (.action (.work 0)),
          (t.phase? 0).map fun | .survey => true | _ => false,
          (List.range since.length).all fun k =>
            (((n.course (since.take k)).bind fun v => v.phase? 0).bind
              Phase.counted?).isSome)) =
        some (some (some (0, 0)), 1, some true, true) :=
    ⟨_, rfl, by decide +kernel⟩
  obtain ⟨m, hm, hend⟩ := Option.bind_eq_some_iff.1 hend
  obtain ⟨n, hn, hend⟩ := Option.bind_eq_some_iff.1 hend
  obtain ⟨t, ht, hend⟩ := Option.map_eq_some_iff.1 hend
  simp only [Prod.mk.injEq, Option.map_eq_some_iff, List.all_eq_true, List.mem_range] at hend
  obtain ⟨⟨phase, hphase, hcounted⟩, hnotifies, ⟨now, hnow, hsurvey⟩, hbetween⟩ := hend
  obtain rfl : now = .survey := by
    cases now with
    | survey => rfl
    | _ => contradiction
  exact ⟨s, m, n, t, phase, hopen, hm, hphase, Phase.counts_of_counted? hcounted, hn, hnotifies, ht,
    hnow, fun _ => not_scansIn_of_counted? hbetween⟩

end Store

end Strata
