import Strata.Store.Machine

/-!
# Runs and courses of an index

A run is a list of actions. An index does not run alone, though: the files of its directory may
change under it, and a merge or a flush may fail at any time as it reads or writes. A turn is an
action of the index or such an event, and a course is a list of turns, so every run is a course.
What a run or a course adds up is added up along the states it passes. What a move of a component, a
flush and a step of a call of the merge policy touch is said here once.
-/

namespace Strata

/-- The first steps of the calls that clients make. -/
inductive Task.Begins : Task → Prop where
  | insert (key : Bytes) (tuple : Tuple) : Begins (.insert key tuple)
  | flush : Begins .flush
  | request : Begins .request
  | drain : Begins .drain

/-- An action that begins a call does so at its first step. -/
def Action.Proper : Action → Prop
  | .call task => task.Begins
  | _ => True

/-- What can happen next to an index and its file system. -/
inductive Turn where
  /-- The index takes an action. -/
  | action (a : Action)
  /-- The files of the directory change. -/
  | files (d : Directory)
  /-- The merge that a worker is at fails as it reads or writes. -/
  | failMerge (worker : Nat) (f : Failure)
  /-- The flush that a client is at fails as it writes. -/
  | failFlush (client : Nat) (f : Failure)

namespace Turn

/-- The worker whose turn it is. -/
def worker? : Turn → Option Nat
  | .action (.work i) => some i
  | .failMerge i _ => some i
  | _ => none

/-- The client whose turn it is. -/
def client? : Turn → Option Nat
  | .action (.client i) => some i
  | .failFlush i _ => some i
  | _ => none

/-- A turn that begins a call does so at its first step. -/
def Proper : Turn → Prop
  | .action a => a.Proper
  | _ => True

end Turn

/-- Whether a merge is reading or writing. -/
def Job.usesFiles (job : Job) : Bool :=
  match job.phase with
  | .read => true
  | .build .. => true
  | _ => false

namespace Store

/-- What the steps of a run add up to. -/
def tally (count : Store → Action → Nat) : Store → List Action → Nat
  | _, [] => 0
  | s, a :: rest => count s a + ((s.step a).map fun t => tally count t rest).getD 0

/-- The merge of a worker fails as it reads or writes. -/
def failMerge (s : Store) (i : Nat) (f : Failure) : Option Store := do
  let job ← s.pool.jobOf? i
  if job.usesFiles then
    some { s with pool := s.pool.setWorker i (workerOf { job with phase := Job.phaseOf f }) }
  else none

/-- The flush of a client fails as it writes. The count and the stamp are used up. -/
def failFlush (s : Store) (i : Nat) (f : Failure) : Option Store :=
  match s.clients[i]? with
  | some .flush =>
    if s.memory.isEmpty then none
    else
      some { s with
        nextStamp := s.nextStamp + 1
        nextSerial := s.nextSerial + 1
        clients := s.clients.set i (.returned (.error f)) }
  | _ => none

theorem failMerge_eq_some_iff {s t : Store} {i : Nat} {f : Failure} :
    s.failMerge i f = some t ↔ ∃ job, s.pool.jobOf? i = some job ∧ job.usesFiles = true ∧
      t = { s with
        pool := s.pool.setWorker i (workerOf { job with phase := Job.phaseOf f }) } := by
  simp only [failMerge, bind, Option.bind_eq_some_iff, Option.ite_none_right_eq_some,
    Option.some.injEq, eq_comm (a := t)]

theorem failFlush_eq_some_iff {s t : Store} {i : Nat} {f : Failure} :
    s.failFlush i f = some t ↔ s.clients[i]? = some .flush ∧ s.memory.isEmpty = false ∧
      t = { s with
        nextStamp := s.nextStamp + 1
        nextSerial := s.nextSerial + 1
        clients := s.clients.set i (.returned (.error f)) } := by
  constructor
  · intro h
    unfold failFlush at h
    split at h
    · rename_i htask
      split at h
      · contradiction
      · rename_i hmemory
        exact ⟨htask, eq_false_of_ne_true hmemory, (Option.some.inj h).symm⟩
    · contradiction
  · rintro ⟨htask, hmemory, rfl⟩
    simp only [failFlush, htask, hmemory, Bool.false_eq_true, if_false]

/-- The state after a turn, if it can be taken. -/
def turn (s : Store) : Turn → Option Store
  | .action a => s.step a
  | .files d => some { s with files := d }
  | .failMerge i f => s.failMerge i f
  | .failFlush i f => s.failFlush i f

/-- The state after a course of turns, if all of them can be taken. -/
def course (s : Store) : List Turn → Option Store
  | [] => some s
  | τ :: rest => (s.turn τ).bind fun s => course s rest

theorem course_append (s : Store) (first second : List Turn) :
    s.course (first ++ second) = (s.course first).bind fun t => t.course second := by
  induction first generalizing s with
  | nil => rfl
  | cons τ rest ih =>
    simp only [List.cons_append, course]
    cases s.turn τ with
    | none => rfl
    | some t => exact ih t

/-- A course is a shorter course and a last turn. -/
theorem course_concat_eq_some_iff {s u : Store} {turns : List Turn} {τ : Turn} :
    s.course (turns ++ [τ]) = some u ↔ ∃ t, s.course turns = some t ∧ t.turn τ = some u := by
  rw [course_append, Option.bind_eq_some_iff]
  simp [course]

/-- Where the file system does not fail, a course is a run. -/
theorem course_map_action (s : Store) (actions : List Action) :
    s.course (actions.map .action) = s.run actions := by
  induction actions generalizing s with
  | nil => rfl
  | cons a rest ih =>
    simp only [List.map_cons, course, run, turn]
    cases s.step a with
    | none => rfl
    | some t => exact ih t

/-- What the turns of a course add up to. -/
def sum (count : Store → Turn → Nat) : Store → List Turn → Nat
  | _, [] => 0
  | s, τ :: rest => count s τ + ((s.turn τ).map fun t => sum count t rest).getD 0

theorem sum_cons {s t : Store} {τ : Turn} (count : Store → Turn → Nat) (h : s.turn τ = some t)
    (rest : List Turn) : s.sum count (τ :: rest) = count s τ + t.sum count rest := by
  rw [sum, h]
  rfl

theorem sum_append {s t : Store} {first : List Turn} (count : Store → Turn → Nat)
    (h : s.course first = some t) (second : List Turn) :
    s.sum count (first ++ second) = s.sum count first + t.sum count second := by
  induction first generalizing s with
  | nil =>
    obtain rfl := Option.some.inj h
    exact (Nat.zero_add _).symm
  | cons τ rest ih =>
    obtain ⟨u, hturn, hrest⟩ := Option.bind_eq_some_iff.1 h
    rw [List.cons_append, sum_cons count hturn, sum_cons count hturn, ih hrest, Nat.add_assoc]

/-- What the turns of a course leave behind, in order. -/
def trail {α : Type} (leaves : Store → Turn → List α) : Store → List Turn → List α
  | _, [] => []
  | s, τ :: rest => leaves s τ ++ ((s.turn τ).map fun t => trail leaves t rest).getD []

theorem trail_cons {α : Type} {s t : Store} {τ : Turn} (leaves : Store → Turn → List α)
    (h : s.turn τ = some t) (rest : List Turn) :
    s.trail leaves (τ :: rest) = leaves s τ ++ t.trail leaves rest := by
  rw [trail, h]
  rfl

/-- What a course leaves behind in its last turn comes last. -/
theorem trail_concat {α : Type} {s t : Store} {turns : List Turn} (leaves : Store → Turn → List α)
    (τ : Turn) (h : s.course turns = some t) :
    s.trail leaves (turns ++ [τ]) = s.trail leaves turns ++ leaves t τ := by
  induction turns generalizing s with
  | nil =>
    obtain rfl := Option.some.inj h
    rw [List.nil_append, trail, trail, List.nil_append]
    cases s.turn τ <;> exact List.append_nil _
  | cons σ rest ih =>
    obtain ⟨u, hturn, hrest⟩ := Option.bind_eq_some_iff.1 h
    rw [List.cons_append, trail_cons leaves hturn, trail_cons leaves hturn, ih hrest,
      List.append_assoc]

theorem move_eq_ok {s t : Store} {c : Component} {m : Move} (h : s.move c m = .ok t) :
    s.state c = m.source ∧
      t = { s with board := { s.board with states := s.board.states.set c.serial m.target } } := by
  unfold move Lifecycle.move at h
  cases hmove : (s.board.states.state c.serial).moved m with
  | error e => simp [hmove, bind, Except.bind] at h
  | ok target =>
    obtain ⟨hsource, rfl⟩ := State.moved_eq_ok_iff.1 hmove
    simp only [hmove, bind, Except.bind, pure, Except.pure, Except.ok.injEq] at h
    exact ⟨hsource, h.symm⟩

/-- A component that is ready for a move makes it. -/
theorem exists_move {s : Store} {c : Component} {m : Move} (h : s.state c = m.source) :
    ∃ t, s.move c m = .ok t := by
  have hmoved : (s.board.states.state c.serial).moved m = .ok m.target :=
    State.moved_eq_ok_iff.2 ⟨h, rfl⟩
  rw [move, Lifecycle.move, hmoved]
  exact ⟨_, rfl⟩

theorem client_eq_some_iff {s t : Store} {i : Nat} :
    s.client i = some t ↔ ∃ task s' task', s.clients[i]? = some task ∧
      s.stepTask task = some (s', task') ∧ t = { s' with clients := s'.clients.set i task' } := by
  simp only [client, bind, Option.bind_eq_some_iff, pure, Option.some.injEq, Prod.exists]
  constructor
  · rintro ⟨task, htask, s', task', hstep, rfl⟩
    exact ⟨task, s', task', htask, hstep, rfl⟩
  · rintro ⟨task, s', task', htask, hstep, rfl⟩
    exact ⟨task, htask, s', task', hstep, rfl⟩

theorem work_eq_some_iff {s t : Store} {i : Nat} :
    s.work i = some t ↔ ∃ job s' job', s.pool.jobOf? i = some job ∧
      s.stepJob job = some (s', job') ∧
      t = { s' with pool := s'.pool.setWorker i (workerOf job') } := by
  simp only [work, bind, Option.bind_eq_some_iff, pure, Option.some.injEq, Prod.exists]
  constructor
  · rintro ⟨job, hjob, s', job', hstep, rfl⟩
    exact ⟨job, s', job', hjob, hstep, rfl⟩
  · rintro ⟨job, s', job', hjob, hstep, rfl⟩
    exact ⟨job, hjob, s', job', hstep, rfl⟩

/-- A flush touches files, memory, the list of components, and both counts. -/
theorem flushMemory_frame (s : Store) :
    ∃ files roster memory stamp serial, s.flushMemory.1 =
      { s with
        files
        board := { s.board with roster }
        memory
        nextStamp := stamp
        nextSerial := serial } := by
  unfold flushMemory
  split
  · exact ⟨_, _, _, _, _, rfl⟩
  · simp only
    split
    · exact ⟨_, _, _, _, _, rfl⟩
    · exact ⟨_, _, _, _, _, rfl⟩

/-- A flush leaves all clients where they are. -/
theorem clients_flushMemory {s t : Store} {answer : Outcome (Option Component)}
    (h : s.flushMemory = (t, answer)) : t.clients = s.clients := by
  obtain ⟨_, _, _, _, _, hframe⟩ := flushMemory_frame s
  rw [h] at hframe
  dsimp only at hframe
  rw [hframe]

/-- A flush that writes a component lists it, and clears memory. -/
theorem flushMemory_eq_ok_iff {s t : Store} {c : Component} :
    s.flushMemory = (t, .ok (some c)) ↔ s.memory.isEmpty = false ∧ ∃ files,
      s.files.build s.format s.nextSerial (.single (Numeral.wrapped s.nextStamp))
        (Keyed.values s.memory.tuples) = (files, .ok c) ∧
      t = { s with
        files
        board := { s.board with roster := s.board.roster.prepend c }
        memory := s.memory.clear
        nextStamp := s.nextStamp + 1
        nextSerial := s.nextSerial + 1 } := by
  constructor
  · intro h
    simp only [flushMemory] at h
    split at h
    · simp at h
    · rename_i hmemory
      split at h
      · simp at h
      · rename_i files c' hbuild
        obtain ⟨rfl, hc⟩ := Prod.mk.inj h
        obtain rfl := Option.some.inj (Except.ok.inj hc)
        exact ⟨eq_false_of_ne_true hmemory, files, hbuild, rfl⟩
  · rintro ⟨hmemory, files, hbuild, rfl⟩
    simp only [flushMemory, hmemory, hbuild]
    rfl

end Store

namespace Call

theorem afterCount_board (b : Board) (tolerance : Nat) (waited : Bool) (observed small : Nat) :
    ∃ metrics, (afterCount b tolerance waited observed small).1 = { b with metrics } := by
  unfold afterCount
  split
  · exact ⟨_, rfl⟩
  · cases waited <;> exact ⟨_, rfl⟩

theorem stepCount_board (b : Board) (largest tolerance : Nat) (waited : Bool) (observed : Nat)
    (rest : List Component) (small : Nat) :
    ∃ metrics, (stepCount b largest tolerance waited observed rest small).1 =
      { b with metrics } := by
  cases rest with
  | nil => exact afterCount_board ..
  | cons c rest =>
    simp only [stepCount]
    split
    · exact afterCount_board ..
    · split
      · exact afterCount_board ..
      · split
        · exact afterCount_board ..
        · exact ⟨_, rfl⟩

/-- A call of the policy touches the tracker and the counts. The generation moves only where a
merge notifies those who wait. -/
theorem step_frame {b b' : Board} {c c' : Call} (h : c.step b = some (b', c')) :
    ∃ tracker metrics, b' = { b with tracker, metrics } ∧ c' = { c with phase := c'.phase } ∧
      (tracker.generation = b.tracker.generation ∨
        c.phase = .wake ∧ tracker.generation = b.tracker.notify.generation) := by
  obtain ⟨policy, full, phase⟩ := c
  cases phase with
  | wake =>
    simp only [step, Option.some.injEq, Prod.mk.injEq] at h
    obtain ⟨rfl, rfl⟩ := h
    exact ⟨_, _, rfl, rfl, .inr ⟨rfl, rfl⟩⟩
  | observe waited =>
    simp only [step, Option.some.injEq, Prod.mk.injEq] at h
    obtain ⟨rfl, rfl⟩ := h
    exact ⟨_, _, rfl, rfl, .inl rfl⟩
  | look waited observed =>
    simp only [step, Option.some.injEq, Prod.mk.injEq] at h
    obtain ⟨rfl, rfl⟩ := h
    exact ⟨_, _, rfl, rfl, .inl rfl⟩
  | count waited observed rest small =>
    simp only [step, Option.some.injEq, Prod.mk.injEq] at h
    obtain ⟨rfl, rfl⟩ := h
    obtain ⟨metrics, hboard⟩ :=
      stepCount_board b (limits policy).1 (limits policy).2 waited observed
      rest small
    exact ⟨_, metrics, hboard, rfl, .inl rfl⟩
  | drowse observed =>
    by_cases hholds : b.tracker.holds observed
    · simp only [step, hholds, if_true, Option.some.injEq, Prod.mk.injEq] at h
      obtain ⟨rfl, rfl⟩ := h
      exact ⟨_, _, rfl, rfl, .inl rfl⟩
    · simp only [step, hholds, Bool.false_eq_true, if_false, Option.some.injEq, Prod.mk.injEq] at h
      obtain ⟨rfl, rfl⟩ := h
      exact ⟨_, _, rfl, rfl, .inl rfl⟩
  | asleep observed =>
    by_cases hholds : b.tracker.holds observed
    · simp [step, hholds] at h
    · simp only [step, hholds, Bool.false_eq_true, if_false, Option.some.injEq, Prod.mk.injEq] at h
      obtain ⟨rfl, rfl⟩ := h
      exact ⟨_, _, rfl, rfl, .inl rfl⟩
  | survey =>
    simp only [step, Option.some.injEq, Prod.mk.injEq] at h
    obtain ⟨rfl, rfl⟩ := h
    exact ⟨_, _, rfl, rfl, .inl rfl⟩
  | inspect listed rest =>
    cases rest with
    | nil =>
      simp only [step, Option.some.injEq, Prod.mk.injEq] at h
      obtain ⟨rfl, rfl⟩ := h
      exact ⟨_, _, rfl, rfl, .inl rfl⟩
    | cons first rest =>
      simp only [step] at h
      split at h
      · obtain ⟨rfl, rfl⟩ := Prod.mk.inj (Option.some.inj h)
        exact ⟨_, _, rfl, rfl, .inl rfl⟩
      · obtain ⟨rfl, rfl⟩ := Prod.mk.inj (Option.some.inj h)
        exact ⟨_, _, rfl, rfl, .inl rfl⟩
  | ordered order => simp [step] at h
  | finished answer => simp [step] at h

theorem reply_frame (b : Board) (c : Call) (answer : Except Error Bool) :
    ∃ metrics result, c.reply b answer =
      ({ b with metrics }, { c with phase := .finished result }) := by
  cases answer with
  | error e => exact ⟨_, _, rfl⟩
  | ok scheduled => cases scheduled <;> exact ⟨_, _, rfl⟩

end Call

/-- Whether a call of the policy is about to notify those who wait. -/
def Consultation.wakes : Consultation → Bool
  | .thinking ⟨_, _, .wake⟩ => true
  | _ => false

/-- Whether a call of a client is at a call of the policy that is about to notify. -/
def Task.wakes : Task → Bool
  | .consult k => k.wakes
  | _ => false

end Strata
