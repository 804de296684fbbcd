import Strata.Proofs.Component.File
import Strata.Proofs.Store.Run

/-!
# The steps of an index, one by one

What scheduling, a call of the policy, a merge and the call of a client can do next, each written
out as a relation with one case for every kind of step. A step is one of a thread, which is the call
of a client or a merge; a merge that a step submits is a thread of its own from then on. The
relations leave open when reading or writing a file fails, so they also hold of an index whose file
system fails now and then.

Whatever its kind, a step submits one merge at most, scheduling and calls of the policy keep to
their part of the index, and a step notifies just where its thread is about to.
-/

namespace Strata

/-- Whether a merge is about to notify those who wait. -/
def Job.wakes (job : Job) : Bool :=
  match job.phase with
  | .consult k => k.wakes
  | .signal => true
  | _ => false

/-- A call of the policy that has its answer does not notify. -/
theorem Consultation.wakes_of_answer? {k : Consultation} {answer : Except Error Unit}
    (h : k.answer? = some answer) : k.wakes = false := by
  cases k with
  | thinking call =>
    obtain ⟨policy, full, phase⟩ := call
    cases phase with
    | wake => contradiction
    | _ => rfl
  | scheduling call phase => contradiction

/-- A call is about to put a tuple into memory, or to flush, or to do neither. -/
theorem Task.inserts_or_flushes_or_neither (task : Task) :
    (∃ key tuple, task = .insert key tuple) ∨ task = .flush ∨
      (∀ key tuple, task ≠ .insert key tuple) ∧ task ≠ .flush := by
  cases task <;> simp

namespace Store

/-- The index after a move of a component. -/
def moved (s : Store) (c : Component) (m : Move) : Store :=
  { s with board := { s.board with states := s.board.states.set c.serial m.target } }

theorem move_eq_ok_iff {s t : Store} {c : Component} {m : Move} :
    s.move c m = .ok t ↔ s.state c = m.source ∧ t = s.moved c m := by
  constructor
  · exact move_eq_ok
  · rintro ⟨hsource, rfl⟩
    obtain ⟨t, hmove⟩ := exists_move hsource
    rw [hmove, (move_eq_ok hmove).2]
    rfl

theorem move_eq_error {s : Store} {c : Component} {m : Move} {e : Error}
    (h : s.move c m = .error e) : s.state c ≠ m.source := by
  intro hsource
  obtain ⟨t, hmove⟩ := exists_move hsource
  rw [hmove] at h
  contradiction

/-- The steps of scheduling, with the merge that is submitted. -/
inductive Schedules (s : Store) : Scheduling → Store → Scheduling → List Job → Prop where
  | clear : Schedules s .clear { s with fullRequested := false } .gather []
  | gather : Schedules s .gather s (.claim true [] s.board.roster.newestFirst) []
  | claimNone {all : Bool} : Schedules s (.claim all [] []) s (.conclude all (.ok false)) []
  | claimedAll {all : Bool} {members : List Component} (hmembers : members ≠ []) :
      Schedules s (.claim all members []) s (.enlist all members) []
  | claim {all : Bool} {claimed rest : List Component} {c : Component}
      (hstate : s.state c = .readable) :
      Schedules s (.claim all claimed (c :: rest)) (s.moved c .claim)
        (.claim all (claimed ++ [c]) rest) []
  | claimLost {all : Bool} {claimed rest : List Component} {c : Component}
      (hstate : s.state c ≠ .readable) :
      Schedules s (.claim all claimed (c :: rest)) s (.giveUp all claimed) []
  | gaveUp {all : Bool} :
      Schedules s (.giveUp all []) (s.record .deferred) (.conclude all (.ok false)) []
  | giveUp {all : Bool} {c : Component} {rest : List Component} (hstate : s.state c = .merging) :
      Schedules s (.giveUp all (c :: rest)) (s.moved c .release) (.giveUp all rest) []
  | giveUpLost {all : Bool} {c : Component} {rest : List Component} {e : Error}
      (hstate : s.state c ≠ .merging) :
      Schedules s (.giveUp all (c :: rest)) s (.conclude all (.error e)) []
  | enlist {all : Bool} {members : List Component} :
      Schedules s (.enlist all members) { s with inFlight := s.inFlight + 1 }
        (.submit all members) []
  | submit {all : Bool} {members : List Component} {pool : Pool Job}
      (hpool : s.pool.submit { members } = .ok pool) :
      Schedules s (.submit all members) { s with pool } (.conclude all (.ok true)) [{ members }]
  | refuse {all : Bool} {members : List Component} {e : Error}
      (hpool : s.pool.submit { members } = .error e) :
      Schedules s (.submit all members) s (.withdraw all members e) []
  | withdraw {all : Bool} {members : List Component} {e : Error} :
      Schedules s (.withdraw all members e) { s with inFlight := s.inFlight - 1 }
        (.handBack all members e) []
  | handedBack {all : Bool} {e : Error} :
      Schedules s (.handBack all [] e) s (.conclude all (.error e)) []
  | handBack {all : Bool} {c : Component} {rest : List Component} {e : Error}
      (hstate : s.state c = .merging) :
      Schedules s (.handBack all (c :: rest) e) (s.moved c .release) (.handBack all rest e) []
  | handBackLost {all : Bool} {c : Component} {rest : List Component} {e e' : Error}
      (hstate : s.state c ≠ .merging) :
      Schedules s (.handBack all (c :: rest) e) s (.conclude all (.error e')) []
  | restore {answer : Except Error Bool} :
      Schedules s (.restore answer) { s with fullRequested := true } (.answered answer) []

/-- The steps of a call of the policy. -/
inductive Consults (s : Store) : Consultation → Store → Consultation → List Job → Prop where
  | think {call call' : Call} {board : Board} (hstep : call.step s.board = some (board, call')) :
      Consults s (.thinking call) { s with board } (.thinking call') []
  | order {call : Call} {order : Order} (horder : call.order? = some order) :
      Consults s (.thinking call) s (.scheduling call (.ofOrder order)) []
  | schedule {call : Call} {phase phase' : Scheduling} {s' : Store} {new : List Job}
      (hphase : phase.answer? = none) (hstep : s.Schedules phase s' phase' new) :
      Consults s (.scheduling call phase) s' (.scheduling call phase') new
  | reply {call : Call} {answer : Except Error Bool} :
      Consults s (.scheduling call (.answered answer))
        { s with board := (call.reply s.board answer).1 }
        (.thinking (call.reply s.board answer).2) []

/-- The steps of a merge. -/
inductive Merges (s : Store) : Job → Store → Job.Phase → List Job → Prop where
  | readFails {members : List Component} {f : Failure} :
      Merges s ⟨members, .read⟩ s (Job.phaseOf f) []
  | read {members : List Component} {tuples : List Tuple} :
      Merges s ⟨members, .read⟩ s (.number tuples) []
  | number {members : List Component} {tuples : List Tuple} :
      Merges s ⟨members, .number tuples⟩ { s with nextSerial := s.nextSerial + 1 }
        (.build s.nextSerial tuples) []
  | buildFails {members : List Component} {serial : Nat} {tuples : List Tuple} {files : Directory}
      {f : Failure} :
      Merges s ⟨members, .build serial tuples⟩ { s with files } (Job.phaseOf f) []
  | build {members : List Component} {serial : Nat} {tuples : List Tuple} {range : Range}
      {files : Directory} {result : Component}
      (hrange : Range.span (members.map Component.range) = some range)
      (hbuild : s.files.build s.format serial range tuples = (files, .ok result)) :
      Merges s ⟨members, .build serial tuples⟩ { s with files } (.swap result) []
  | swapFails {members : List Component} {result : Component} {files : Directory} {e : Error}
      (hreplace : s.board.roster.replace (members.map Component.id) result = .error e) :
      Merges s ⟨members, .swap result⟩ { s with files } (.fail e) []
  | swap {members : List Component} {result : Component} {roster : Roster}
      (hreplace : s.board.roster.replace (members.map Component.id) result = .ok roster) :
      Merges s ⟨members, .swap result⟩ { s with board := { s.board with roster } }
        (.retire result members) []
  | retired {members : List Component} {result : Component} :
      Merges s ⟨members, .retire result []⟩ s (.succeed result) []
  | retire {members rest : List Component} {result c : Component} {retired : List Component}
      (hstate : s.state c = .merging) :
      Merges s ⟨members, .retire result (c :: rest)⟩ { s.moved c .replace with retired }
        (.retire result rest) []
  | retireLost {members rest : List Component} {result c : Component} {e : Error}
      (hstate : s.state c ≠ .merging) :
      Merges s ⟨members, .retire result (c :: rest)⟩ s (.fail e) []
  | succeed {members : List Component} {result : Component} :
      Merges s ⟨members, .succeed result⟩
        ({ s.record .completed with failures := 0 }.report (.merged result (s.state result)))
        (.consider result) []
  | failRetry {members : List Component} {e : Error} (hretry : s.failures + 1 ≤ retryLimit) :
      Merges s ⟨members, .fail e⟩
        ({ s.record .failed with failures := s.failures + 1 }.report (.failed e))
        (.release members) []
  | failPark {members : List Component} {e : Error} (hpark : retryLimit < s.failures + 1) :
      Merges s ⟨members, .fail e⟩
        ({ s.record .failed with failures := s.failures + 1 }.report (.failed e)) .land []
  | releasedNone : Merges s ⟨[], .release []⟩ s .land []
  | released {newest : Component} {members : List Component} :
      Merges s ⟨newest :: members, .release []⟩ s (.consider newest) []
  | release {members rest : List Component} {c : Component} (hstate : s.state c = .merging) :
      Merges s ⟨members, .release (c :: rest)⟩ (s.moved c .release) (.release rest) []
  | releaseLost {members rest : List Component} {c : Component} (hstate : s.state c ≠ .merging) :
      Merges s ⟨members, .release (c :: rest)⟩ s .land []
  | consider {members : List Component} {added : Component} :
      Merges s ⟨members, .consider added⟩ s (.consult (s.consult s.fullRequested added true)) []
  | consulted {members : List Component} {k : Consultation} {answer : Except Error Unit}
      (hanswer : k.answer? = some answer) : Merges s ⟨members, .consult k⟩ s .land []
  | consult {members : List Component} {k k' : Consultation} {s' : Store} {new : List Job}
      (hstep : s.Consults k s' k' new) : Merges s ⟨members, .consult k⟩ s' (.consult k') new
  | land {members : List Component} :
      Merges s ⟨members, .land⟩ { s with inFlight := s.inFlight - 1 } .signal []
  | signal {members : List Component} :
      Merges s ⟨members, .signal⟩ { s with board := s.board.notify } .over []

/-- The steps of the call of a client. -/
inductive Calls (s : Store) : Task → Store → Task → List Job → Prop where
  | insert {key : Bytes} {tuple : Tuple} {memory : Memory} {task : Task}
      (htask : task = .flush ∨ task = .returned (.ok ())) :
      Calls s (.insert key tuple) { s with memory } task []
  | flushFails {files : Directory} {f : Failure} :
      Calls s .flush
        { s with files, nextStamp := s.nextStamp + 1, nextSerial := s.nextSerial + 1 }
        (.returned (.error f)) []
  | flushNone : Calls s .flush s (.returned (.ok ())) []
  | flush {files : Directory} {memory : Memory} {c : Component}
      (hserial : c.serial = s.nextSerial) :
      Calls s .flush
        { s with
          files
          board := { s.board with roster := s.board.roster.prepend c }
          memory
          nextStamp := s.nextStamp + 1
          nextSerial := s.nextSerial + 1 } (.report c) []
  | report {c : Component} :
      Calls s (.report c) ((s.record .flush).report (.flushed c (s.state c)))
        (.consult (s.consult s.fullRequested c false)) []
  | request : Calls s .request { s with fullRequested := true } .requested []
  | requested {task : Task} (htask : task = .newest ∨ task = .flush) :
      Calls s .requested s task []
  | newestNone : Calls s .newest s (.returned (.ok ())) []
  | newest {c : Component} : Calls s .newest s (.consult (s.consult true c false)) []
  | consulted {k : Consultation} {answer : Except Error Unit} (hanswer : k.answer? = some answer) :
      Calls s (.consult k) s (.returned (Outcome.ofExcept answer)) []
  | consult {k k' : Consultation} {s' : Store} {new : List Job} (hstep : s.Consults k s' k' new) :
      Calls s (.consult k) s' (.consult k') new
  | drain : Calls s .drain s (.draining s.board.tracker.generation) []
  | draining {observed : Nat} {task : Task}
      (htask : task = .returned (.ok ()) ∨ task = .drowse observed) :
      Calls s (.draining observed) s task []
  | drowse {observed : Nat} {tracker : Tracker} {task : Task}
      (htask : task = .asleep observed ∨ task = .drain) :
      Calls s (.drowse observed) { s with board := { s.board with tracker } } task []
  | wake {observed : Nat} {tracker : Tracker} :
      Calls s (.asleep observed) { s with board := { s.board with tracker } } .drain []

/-- A step of scheduling that is not over is one of its kinds. -/
theorem schedules_stepScheduling (s : Store) {phase : Scheduling} (h : phase.answer? = none) :
    ∃ new, s.Schedules phase (s.stepScheduling phase).1 (s.stepScheduling phase).2 new := by
  cases phase with
  | clear => exact ⟨_, .clear⟩
  | gather => exact ⟨_, .gather⟩
  | claim all claimed rest =>
    cases rest with
    | nil =>
      cases claimed with
      | nil => exact ⟨_, .claimNone⟩
      | cons c claimed => exact ⟨_, .claimedAll (List.cons_ne_nil c claimed)⟩
    | cons c rest =>
      simp only [stepScheduling]
      split
      · rename_i t hmove
        obtain ⟨hstate, rfl⟩ := move_eq_ok_iff.1 hmove
        exact ⟨_, .claim hstate⟩
      · exact ⟨_, .claimLost (move_eq_error ‹_›)⟩
  | giveUp all rest =>
    cases rest with
    | nil => exact ⟨_, .gaveUp⟩
    | cons c rest =>
      simp only [stepScheduling]
      split
      · rename_i t hmove
        obtain ⟨hstate, rfl⟩ := move_eq_ok_iff.1 hmove
        exact ⟨_, .giveUp hstate⟩
      · exact ⟨_, .giveUpLost (move_eq_error ‹_›)⟩
  | enlist all members => exact ⟨_, .enlist⟩
  | submit all members =>
    simp only [stepScheduling]
    split
    · exact ⟨_, .submit ‹_›⟩
    · exact ⟨_, .refuse ‹_›⟩
  | withdraw all members e => exact ⟨_, .withdraw⟩
  | handBack all rest e =>
    cases rest with
    | nil => exact ⟨_, .handedBack⟩
    | cons c rest =>
      simp only [stepScheduling]
      split
      · rename_i t hmove
        obtain ⟨hstate, rfl⟩ := move_eq_ok_iff.1 hmove
        exact ⟨_, .handBack hstate⟩
      · exact ⟨_, .handBackLost (move_eq_error ‹_›)⟩
  | restore answer => exact ⟨_, .restore⟩
  | answered answer => simp [Scheduling.answer?] at h

theorem consults_of_stepConsultation {s s' : Store} {k k' : Consultation}
    (h : s.stepConsultation k = some (s', k')) : ∃ new, s.Consults k s' k' new := by
  cases k with
  | thinking call =>
    simp only [stepConsultation] at h
    split at h
    · obtain ⟨rfl, rfl⟩ := Prod.mk.inj (Option.some.inj h)
      exact ⟨_, .order ‹_›⟩
    · obtain ⟨⟨board, call'⟩, hstep, heq⟩ := Option.map_eq_some_iff.1 h
      obtain ⟨rfl, rfl⟩ := Prod.mk.inj heq
      exact ⟨_, .think hstep⟩
  | scheduling call phase =>
    simp only [stepConsultation] at h
    split at h
    · rename_i answer hanswer
      obtain ⟨rfl, rfl⟩ := Prod.mk.inj (Option.some.inj h)
      cases phase with
      | answered answer' =>
        obtain rfl := Option.some.inj hanswer
        exact ⟨_, .reply⟩
      | _ => simp [Scheduling.answer?] at hanswer
    · rename_i hanswer
      obtain ⟨rfl, rfl⟩ := Prod.mk.inj (Option.some.inj h)
      obtain ⟨new, hstep⟩ := schedules_stepScheduling s hanswer
      exact ⟨new, .schedule hanswer hstep⟩

/-- A step of a merge is one of its kinds, and leaves the members as they are. -/
theorem merges_of_stepJob {s s' : Store} {job job' : Job} (h : s.stepJob job = some (s', job')) :
    ∃ phase new, job' = { job with phase } ∧ s.Merges job s' phase new := by
  obtain ⟨members, phase⟩ := job
  cases phase with
  | read =>
    simp only [stepJob] at h
    split at h
    · obtain ⟨rfl, rfl⟩ := Prod.mk.inj (Option.some.inj h)
      exact ⟨_, _, rfl, @Merges.readFails s members (.error (.refusal .noMembers))⟩
    · split at h
      · obtain ⟨rfl, rfl⟩ := Prod.mk.inj (Option.some.inj h)
        exact ⟨_, _, rfl, .readFails⟩
      · obtain ⟨rfl, rfl⟩ := Prod.mk.inj (Option.some.inj h)
        exact ⟨_, _, rfl, .read⟩
  | number tuples =>
    obtain ⟨rfl, rfl⟩ := Prod.mk.inj (Option.some.inj h)
    exact ⟨_, _, rfl, .number⟩
  | build serial tuples =>
    simp only [stepJob] at h
    split at h
    · obtain ⟨rfl, rfl⟩ := Prod.mk.inj (Option.some.inj h)
      exact ⟨_, _, rfl,
        @Merges.buildFails s members serial tuples s.files (.error (.refusal .noMembers))⟩
    · split at h
      · obtain ⟨rfl, rfl⟩ := Prod.mk.inj (Option.some.inj h)
        exact ⟨_, _, rfl, .buildFails⟩
      · obtain ⟨rfl, rfl⟩ := Prod.mk.inj (Option.some.inj h)
        exact ⟨_, _, rfl, .build ‹_› ‹_›⟩
  | swap result =>
    simp only [stepJob] at h
    split at h
    · obtain ⟨rfl, rfl⟩ := Prod.mk.inj (Option.some.inj h)
      exact ⟨_, _, rfl, .swapFails ‹_›⟩
    · obtain ⟨rfl, rfl⟩ := Prod.mk.inj (Option.some.inj h)
      exact ⟨_, _, rfl, .swap ‹_›⟩
  | retire result rest =>
    cases rest with
    | nil =>
      obtain ⟨rfl, rfl⟩ := Prod.mk.inj (Option.some.inj h)
      exact ⟨_, _, rfl, .retired⟩
    | cons c rest =>
      simp only [stepJob] at h
      split at h
      · obtain ⟨rfl, rfl⟩ := Prod.mk.inj (Option.some.inj h)
        exact ⟨_, _, rfl, .retireLost (move_eq_error ‹_›)⟩
      · rename_i t hmove
        obtain ⟨rfl, rfl⟩ := Prod.mk.inj (Option.some.inj h)
        obtain ⟨hstate, rfl⟩ := move_eq_ok_iff.1 hmove
        exact ⟨_, _, rfl, .retire hstate⟩
  | succeed result =>
    obtain ⟨rfl, rfl⟩ := Prod.mk.inj (Option.some.inj h)
    exact ⟨_, _, rfl, .succeed⟩
  | fail e =>
    obtain ⟨rfl, rfl⟩ := Prod.mk.inj (Option.some.inj h)
    by_cases hretry : s.failures + 1 ≤ retryLimit
    · refine ⟨.release members, [], ?_, .failRetry hretry⟩
      simp [mayRetry, report, record, hretry]
    · refine ⟨.land, [], ?_, .failPark (Nat.lt_of_not_le hretry)⟩
      simp [mayRetry, report, record, hretry]
  | release rest =>
    cases rest with
    | nil =>
      cases members with
      | nil =>
        obtain ⟨rfl, rfl⟩ := Prod.mk.inj (Option.some.inj h)
        exact ⟨_, _, rfl, .releasedNone⟩
      | cons newest members =>
        obtain ⟨rfl, rfl⟩ := Prod.mk.inj (Option.some.inj h)
        exact ⟨_, _, rfl, .released⟩
    | cons c rest =>
      simp only [stepJob] at h
      split at h
      · obtain ⟨rfl, rfl⟩ := Prod.mk.inj (Option.some.inj h)
        exact ⟨_, _, rfl, .releaseLost (move_eq_error ‹_›)⟩
      · rename_i t hmove
        obtain ⟨rfl, rfl⟩ := Prod.mk.inj (Option.some.inj h)
        obtain ⟨hstate, rfl⟩ := move_eq_ok_iff.1 hmove
        exact ⟨_, _, rfl, .release hstate⟩
  | consider added =>
    obtain ⟨rfl, rfl⟩ := Prod.mk.inj (Option.some.inj h)
    exact ⟨_, _, rfl, .consider⟩
  | consult k =>
    simp only [stepJob] at h
    split at h
    · obtain ⟨rfl, rfl⟩ := Prod.mk.inj (Option.some.inj h)
      exact ⟨_, _, rfl, .consulted ‹_›⟩
    · obtain ⟨⟨t, k'⟩, hk, heq⟩ := Option.bind_eq_some_iff.1 h
      obtain ⟨rfl, rfl⟩ := Prod.mk.inj (Option.some.inj heq)
      obtain ⟨new, hstep⟩ := consults_of_stepConsultation hk
      exact ⟨_, _, rfl, .consult hstep⟩
  | land =>
    obtain ⟨rfl, rfl⟩ := Prod.mk.inj (Option.some.inj h)
    exact ⟨_, _, rfl, .land⟩
  | signal =>
    obtain ⟨rfl, rfl⟩ := Prod.mk.inj (Option.some.inj h)
    exact ⟨_, _, rfl, .signal⟩
  | «over» => simp [stepJob] at h
  | lost => simp [stepJob] at h

theorem calls_of_stepTask {s s' : Store} {task task' : Task}
    (h : s.stepTask task = some (s', task')) : ∃ new, s.Calls task s' task' new := by
  cases task with
  | insert key tuple =>
    obtain ⟨rfl, rfl⟩ := Prod.mk.inj (Option.some.inj h)
    refine ⟨[], .insert ?_⟩
    split
    · exact .inl rfl
    · exact .inr rfl
  | flush =>
    simp only [stepTask, flushMemory] at h
    split at h
    · rename_i t e hflush
      obtain ⟨rfl, rfl⟩ := Prod.mk.inj (Option.some.inj h)
      split at hflush
      · simp at hflush
      · split at hflush
        · obtain ⟨rfl, hf⟩ := Prod.mk.inj hflush
          exact ⟨_, .flushFails⟩
        · simp at hflush
    · rename_i t hflush
      obtain ⟨rfl, rfl⟩ := Prod.mk.inj (Option.some.inj h)
      split at hflush
      · obtain ⟨rfl, -⟩ := Prod.mk.inj hflush
        exact ⟨_, .flushNone⟩
      · split at hflush <;> simp at hflush
    · rename_i t c hflush
      obtain ⟨rfl, rfl⟩ := Prod.mk.inj (Option.some.inj h)
      split at hflush
      · simp at hflush
      · split at hflush
        · simp at hflush
        · rename_i hbuild
          obtain ⟨rfl, hc⟩ := Prod.mk.inj hflush
          obtain rfl := Option.some.inj (Except.ok.inj hc)
          exact ⟨_, .flush (Directory.serial_build hbuild)⟩
  | report c =>
    obtain ⟨rfl, rfl⟩ := Prod.mk.inj (Option.some.inj h)
    exact ⟨_, .report⟩
  | request =>
    obtain ⟨rfl, rfl⟩ := Prod.mk.inj (Option.some.inj h)
    exact ⟨_, .request⟩
  | requested =>
    obtain ⟨rfl, rfl⟩ := Prod.mk.inj (Option.some.inj h)
    refine ⟨[], .requested ?_⟩
    split
    · exact .inl rfl
    · exact .inr rfl
  | newest =>
    simp only [stepTask] at h
    split at h
    · obtain ⟨rfl, rfl⟩ := Prod.mk.inj (Option.some.inj h)
      exact ⟨_, .newestNone⟩
    · obtain ⟨rfl, rfl⟩ := Prod.mk.inj (Option.some.inj h)
      exact ⟨_, .newest⟩
  | consult k =>
    simp only [stepTask] at h
    split at h
    · obtain ⟨rfl, rfl⟩ := Prod.mk.inj (Option.some.inj h)
      exact ⟨_, .consulted ‹_›⟩
    · obtain ⟨⟨t, k'⟩, hk, heq⟩ := Option.map_eq_some_iff.1 h
      obtain ⟨rfl, rfl⟩ := Prod.mk.inj heq
      obtain ⟨new, hstep⟩ := consults_of_stepConsultation hk
      exact ⟨_, .consult hstep⟩
  | drain =>
    obtain ⟨rfl, rfl⟩ := Prod.mk.inj (Option.some.inj h)
    exact ⟨_, .drain⟩
  | draining observed =>
    obtain ⟨rfl, rfl⟩ := Prod.mk.inj (Option.some.inj h)
    refine ⟨[], .draining ?_⟩
    split
    · exact .inl rfl
    · exact .inr rfl
  | drowse observed =>
    simp only [stepTask] at h
    split at h
    · obtain ⟨rfl, rfl⟩ := Prod.mk.inj (Option.some.inj h)
      exact ⟨_, .drowse (.inl rfl)⟩
    · obtain ⟨rfl, rfl⟩ := Prod.mk.inj (Option.some.inj h)
      exact ⟨_, @Calls.drowse s observed s.board.tracker _ (.inr rfl)⟩
  | asleep observed =>
    simp only [stepTask] at h
    split at h
    · contradiction
    · obtain ⟨rfl, rfl⟩ := Prod.mk.inj (Option.some.inj h)
      exact ⟨_, .wake⟩
  | returned answer => simp [stepTask] at h

/-- A flush that writes no component leaves all as it was, or it fails: then a file under
construction may be left, and the count and the stamp are used up. -/
theorem flushMemory_cases {s t : Store} {answer : Outcome (Option Component)}
    (hflush : s.flushMemory = (t, answer)) (hnone : ∀ c, answer ≠ .ok (some c)) :
    t = s ∨ ∃ name file, t = { s with
      files := s.files.write (FileName.draft name) file
      nextStamp := s.nextStamp + 1
      nextSerial := s.nextSerial + 1 } := by
  simp only [flushMemory] at hflush
  split at hflush
  · exact .inl (Prod.mk.inj hflush).1.symm
  · split at hflush
    · rename_i files e hbuild
      obtain ⟨rfl, -⟩ := Prod.mk.inj hflush
      obtain ⟨name, file, rfl⟩ := Directory.build_eq_error hbuild
      exact .inr ⟨name, file, rfl⟩
    · exact absurd (Prod.mk.inj hflush).2.symm (hnone _)

theorem isEmpty_of_flushMemory {s t : Store} (h : s.flushMemory = (t, .ok none)) :
    s.memory.isEmpty = true := by
  simp only [flushMemory] at h
  split at h
  · assumption
  · split at h <;> simp at h

/-- A client that flushes has its answer where no component was written, and otherwise reports the
component. -/
theorem flush_stepTask {s t : Store} {task : Task} (hstep : s.stepTask .flush = some (t, task)) :
    (∃ answer, s.flushMemory = (t, answer) ∧ (∀ c, answer ≠ .ok (some c)) ∧
        task = .returned (answer.map fun _ => ())) ∨
      ∃ c, s.flushMemory = (t, .ok (some c)) ∧ task = .report c := by
  simp only [stepTask] at hstep
  split at hstep
  · rename_i hflush
    obtain ⟨rfl, rfl⟩ := Prod.mk.inj (Option.some.inj hstep)
    exact .inl ⟨_, hflush, by simp, rfl⟩
  · rename_i hflush
    obtain ⟨rfl, rfl⟩ := Prod.mk.inj (Option.some.inj hstep)
    exact .inl ⟨_, hflush, by simp, rfl⟩
  · rename_i c hflush
    obtain ⟨rfl, rfl⟩ := Prod.mk.inj (Option.some.inj hstep)
    exact .inr ⟨c, hflush, rfl⟩

/-- A step submits at most one merge, and does nothing else to clients and the pool. -/
def Submitted (s s' : Store) (new : List Job) : Prop :=
  s'.clients = s.clients ∧
    (new = [] ∧ s'.pool = s.pool ∨
      ∃ members, new = [{ members }] ∧ s.pool.submit { members } = .ok s'.pool)

variable {s s' : Store} {new : List Job}

theorem submitted_schedules {phase phase' : Scheduling}
    (h : s.Schedules phase s' phase' new) : s.Submitted s' new := by
  cases h with
  | submit hpool => exact ⟨rfl, .inr ⟨_, rfl, hpool⟩⟩
  | _ => exact ⟨rfl, .inl ⟨rfl, rfl⟩⟩

theorem submitted_consults {k k' : Consultation}
    (h : s.Consults k s' k' new) : s.Submitted s' new := by
  cases h with
  | schedule hphase hstep => exact submitted_schedules hstep
  | _ => exact ⟨rfl, .inl ⟨rfl, rfl⟩⟩

theorem submitted_merges {job : Job} {phase : Job.Phase}
    (h : s.Merges job s' phase new) : s.Submitted s' new := by
  cases h with
  | consult hstep => exact submitted_consults hstep
  | _ => exact ⟨rfl, .inl ⟨rfl, rfl⟩⟩

theorem submitted_calls {task task' : Task}
    (h : s.Calls task s' task' new) : s.Submitted s' new := by
  cases h with
  | consult hstep => exact submitted_consults hstep
  | _ => exact ⟨rfl, .inl ⟨rfl, rfl⟩⟩

/-- Scheduling touches the request, the count of merges, states and counts, and the pool. -/
theorem frame_schedules {phase phase' : Scheduling} (h : s.Schedules phase s' phase' new) :
    ∃ full count states metrics pool, s' =
      { s with
        fullRequested := full
        inFlight := count
        board := { s.board with states, metrics }
        pool } := by
  cases h <;> exact ⟨_, _, _, _, _, rfl⟩

/-- A call of the policy touches no more than that, and the tracker. -/
theorem frame_consults {k k' : Consultation} (h : s.Consults k s' k' new) :
    ∃ full count states tracker metrics pool, s' =
      { s with
        fullRequested := full
        inFlight := count
        board := { s.board with states, tracker, metrics }
        pool } := by
  cases h with
  | think hstep =>
    obtain ⟨tracker, metrics, rfl, -, -⟩ := Call.step_frame hstep
    exact ⟨_, _, _, tracker, metrics, _, rfl⟩
  | order horder => exact ⟨_, _, _, _, _, _, rfl⟩
  | schedule hphase hstep =>
    obtain ⟨full, count, states, metrics, pool, rfl⟩ := frame_schedules hstep
    exact ⟨full, count, states, _, metrics, pool, rfl⟩
  | reply =>
    rename_i call answer
    obtain ⟨metrics, result, hreply⟩ := Call.reply_frame s.board call answer
    rw [hreply]
    exact ⟨_, _, _, _, metrics, _, rfl⟩

theorem tracker_schedules {phase phase' : Scheduling} (h : s.Schedules phase s' phase' new) :
    s'.board.tracker = s.board.tracker := by
  cases h <;> rfl

/-- A call of the policy notifies with its first step, and with no other. -/
theorem generation_consults {k k' : Consultation} (h : s.Consults k s' k' new) :
    s'.board.tracker.generation =
      if k.wakes then s.board.tracker.notify.generation else s.board.tracker.generation := by
  cases h with
  | think hstep =>
    rename_i call call' board
    obtain ⟨policy, full, phase⟩ := call
    obtain ⟨tracker, metrics, rfl, -, hgeneration⟩ := Call.step_frame hstep
    cases phase with
    | wake =>
      obtain ⟨hboard, -⟩ := Prod.mk.inj (Option.some.inj hstep)
      exact congrArg (fun b : Board => b.tracker.generation) hboard.symm
    | _ => exact hgeneration.resolve_right fun h => nomatch h.1
  | order horder =>
    rename_i call order
    obtain ⟨policy, full, phase⟩ := call
    cases phase with
    | wake => contradiction
    | _ => rfl
  | schedule hphase hstep => rw [tracker_schedules hstep]; rfl
  | reply =>
    rename_i call answer
    obtain ⟨metrics, result, hreply⟩ := Call.reply_frame s.board call answer
    rw [hreply]
    rfl

/-- A merge notifies with the first step of its call of the policy, and with its last step. -/
theorem generation_merges {job : Job} {phase : Job.Phase} (h : s.Merges job s' phase new) :
    s'.board.tracker.generation =
      if job.wakes then s.board.tracker.notify.generation else s.board.tracker.generation := by
  cases h with
  | consulted hanswer =>
    rename_i members k answer
    have hwakes : Job.wakes ⟨members, .consult k⟩ = false :=
      Consultation.wakes_of_answer? hanswer
    rw [hwakes]
    rfl
  | consult hstep => exact generation_consults hstep
  | _ => rfl

/-- A step that does not notify is not the last one of a merge. -/
theorem isOver_merges {job : Job} {phase : Job.Phase} (h : s.Merges job s' phase new)
    (hwakes : job.wakes = false) : Job.isOver { job with phase } = false := by
  cases h with
  | readFails => rename_i f; cases f <;> rfl
  | buildFails => rename_i f; cases f <;> rfl
  | signal => contradiction
  | _ => rfl

/-- The call of a client notifies with the first step of its call of the policy. -/
theorem generation_stepTask {task task' : Task} (h : s.stepTask task = some (s', task')) :
    s'.board.tracker.generation =
      if task.wakes then s.board.tracker.notify.generation else s.board.tracker.generation := by
  obtain ⟨new, hcalls⟩ := calls_of_stepTask h
  cases hcalls with
  | consulted hanswer =>
    rw [Task.wakes, Consultation.wakes_of_answer? hanswer]
    rfl
  | consult hstep => exact generation_consults hstep
  | drowse =>
    -- the relation does not say how those who wait are counted
    simp only [stepTask] at h
    split at h
    · obtain ⟨hs, -⟩ := Prod.mk.inj (Option.some.inj h)
      rw [← hs]
      rfl
    · obtain ⟨hs, -⟩ := Prod.mk.inj (Option.some.inj h)
      rw [← hs]
      rfl
  | wake =>
    simp only [stepTask] at h
    split at h
    · contradiction
    · obtain ⟨hs, -⟩ := Prod.mk.inj (Option.some.inj h)
      rw [← hs]
      rfl
  | _ => rfl

end Store

end Strata
