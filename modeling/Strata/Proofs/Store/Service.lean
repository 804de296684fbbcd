import Strata.Proofs.Store.Flight
import Strata.Proofs.Store.Reopening

/-!
# An index in service

An index is in service while one producer calls it, no merge fails, and the file system has room.
Whatever it comes to then is a state it can come to at all, and what a call of the policy does is
not seen in its history. A tuple that is put into an empty memory and flushed is on disk before the
policy is called.
-/

namespace Strata

/-- A call of a client that reports a component or calls the policy, or is over. -/
def Task.Consulting : Task → Prop
  | .report _ | .consult _ | .returned _ => True
  | _ => False

/-- A merge that has retired its members: it reports, calls the policy, or is over. -/
def Job.Phase.Settling : Job.Phase → Prop
  | .succeed _ | .consider _ | .consult _ | .land | .signal | .over => True
  | _ => False

theorem Job.Phase.Settling.fair {phase : Job.Phase} (h : phase.Settling) : phase.Fair := by
  cases phase <;> trivial

namespace Store

variable {s t : Store} {h : History} {options : Options} {codec : Codec}

/-- A turn in which no merge fails. Calls begin only at rest, those apart that only wait for merges.
-/
structure Attends (s : Store) (τ : Turn) : Prop where
  proper : τ.Proper
  waits : ∀ task, τ = .action (.call task) → task = .drain ∨ s.Rests
  go : τ ≠ .action .shutdown
  fair : ∀ job phase, s.mergeStep? τ = some (job, phase) → phase.Fair

/-- No merge fails in a turn that is not a worker's. -/
theorem attends_of_worker? {τ : Turn} (hproper : τ.Proper)
    (hwaits : ∀ task, τ = .action (.call task) → task = .drain ∨ s.Rests)
    (hgo : τ ≠ .action .shutdown) (hworker : τ.worker? = none) : s.Attends τ := by
  refine ⟨hproper, hwaits, hgo, fun job phase hmerge => ?_⟩
  rw [mergeStep?_eq_none hworker] at hmerge
  contradiction

/-- The states of an index in service, with the history it then has. -/
inductive Serves (options : Options) (codec : Codec) : Store → History → Prop where
  | opened {d : Directory} {s : Store} (hopen : openOn options codec {} = (d, .ok s)) :
      Serves options codec s {}
  | turn {s t : Store} {h : History} {τ : Turn} (hs : Serves options codec s h)
      (hpermits : s.Permits τ) (hattends : s.Attends τ) (hfiles : ∀ d, τ ≠ .files d)
      (hturn : s.turn τ = some t) (hroom : t.Roomy) : Serves options codec t (h.after s t τ)

theorem Serves.reached (hs : Serves options codec s h) :
    Reached codec options.keyFields s h := by
  induction hs with
  | opened hopen => exact .opened rfl hopen
  | turn _ hpermits _ _ hturn hroom ih => exact ih.turn hpermits hturn hroom

theorem Serves.roomy (hs : Serves options codec s h) : s.Roomy := by
  obtain ⟨listed, known, hi⟩ := intact_of_reached hs.reached
  cases hs with
  | opened hopen =>
    refine ⟨hi.stamps, hi.serials, fun name file hname hfile => ?_⟩
    obtain ⟨a, ha, -⟩ := hi.written name file hname hfile
    exact absurd ha List.not_mem_nil
  | turn _ _ _ _ _ hroom => exact hroom

/-- What a build leaves of a directory with room for all component files is one. -/
theorem length_of_build {d d' : Directory} {format : Format} {serial : Nat} {range : Range}
    {tuples : List Tuple} {c : Component}
    (hbuild : d.build format serial range tuples = (d', .ok c)) (hordered : range.min ≤ range.max)
    (hmax : range.max < Numeral.word) (hsize : c.size < Bytes.limit)
    (hroom : ∀ name file, FileName.isComponent name = true → d.find? name = some file →
      file.length < Bytes.limit) :
    ∀ name file, FileName.isComponent name = true → d'.find? name = some file →
      file.length < Bytes.limit := by
  intro name file hname hfile
  obtain ⟨built, hbuilt, hlength⟩ := Directory.size_build hbuild
  obtain ⟨hrange, other, -, rfl⟩ := Directory.tells_build hbuild hordered hmax
  rw [Component.id, Directory.serial_build hbuild, hrange] at hbuilt
  rw [Directory.find?_built _ _ (FileName.isComponent_ofComponent _ _), if_pos rfl] at hbuilt
  rw [Directory.find?_built _ _ hname] at hfile
  split at hfile
  · obtain rfl := Option.some.inj (hbuilt.symm.trans hfile)
    rwa [← hlength]
  · exact hroom name file hname hfile

/-- A tuple that the codec can store is accepted. -/
theorem accept_eq {s : Store} {tuple : Tuple} {needed written : Nat}
    (hkey : s.format.keyFields ≤ tuple.length)
    (hrequired : s.format.codec.required tuple = .ok needed)
    (hwrite : (s.format.codec.write tuple (Bytes.zeros needed) 0).2 = .ok written) :
    s.accept tuple = .ok (tuple.keyBytes s.format.keyFields) := by
  have hkeyOf : s.keyOf tuple = .ok (tuple.keyBytes s.format.keyFields) :=
    if_neg (Nat.not_lt.2 hkey)
  simp only [accept, Outcome.bind_eq_ok_iff, Outcome.liftM_eq, Outcome.ofExcept_eq_ok_iff]
  exact ⟨_, hkeyOf, needed, hrequired, written, hwrite, rfl⟩

/-- A call that has flushed does nothing but report it and call the policy. -/
theorem consulting_stepTask {task task' : Task} (hconsulting : task.Consulting)
    (hstep : s.stepTask task = some (t, task')) : task'.Consulting := by
  obtain ⟨new, hcalls⟩ := calls_of_stepTask hstep
  cases hcalls <;> trivial

/-- A merge that has retired its members touches neither files nor counts. -/
theorem settling_merges {job : Job} {phase : Job.Phase} {new : List Job}
    (hsettling : job.phase.Settling) (hmerges : s.Merges job t phase new) :
    phase.Settling ∧ t.files = s.files ∧ t.nextStamp = s.nextStamp ∧
      t.nextSerial = s.nextSerial := by
  cases hmerges with
  | consult hconsults =>
    have hsame := unmoved_consults hconsults
    exact ⟨trivial, hsame.files, hsame.stamp, hsame.serial⟩
  | succeed => exact ⟨trivial, rfl, rfl, rfl⟩
  | consider => exact ⟨trivial, rfl, rfl, rfl⟩
  | consulted => exact ⟨trivial, rfl, rfl, rfl⟩
  | land => exact ⟨trivial, rfl, rfl, rfl⟩
  | signal => exact ⟨trivial, rfl, rfl, rfl⟩
  | _ => exact hsettling.elim

namespace Serves

/-- A client begins a call that inserts nothing. -/
theorem call (hs : Serves options codec s h) {task : Task} (hbegins : task.Begins)
    (hinsert : ∀ key tuple, task ≠ .insert key tuple) (hrests : s.Rests) :
    Serves options codec { s with clients := s.clients ++ [task] } h := by
  have hpermits : s.Permits (.action (.call task)) := by
    refine ⟨hbegins, fun key tuple heq => ?_, by simp⟩
    exact absurd (Action.call.inj (Turn.action.inj heq)) (hinsert key tuple)
  exact hs.turn hpermits (attends_of_worker? hbegins (fun _ _ => .inr hrests) (by simp) rfl)
    (by simp) rfl (hs.roomy.of_unchanged rfl rfl rfl)

/-- A client begins to insert a tuple. -/
theorem insert (hs : Serves options codec s h) {key : Bytes} {tuple : Tuple}
    (haccept : s.accept tuple = .ok key) (hlength : tuple.length = s.format.codec.kinds.length)
    (hkey : key.length < 2 ^ 32) (hrests : s.Rests) :
    Serves options codec { s with clients := s.clients ++ [.insert key tuple] } h := by
  have hbegins : (Task.insert key tuple).Begins := .insert key tuple
  have hpermits : s.Permits (.action (.call (.insert key tuple))) := by
    refine ⟨hbegins, fun key' tuple' heq => ?_, by simp⟩
    obtain ⟨rfl, rfl⟩ := Task.insert.inj (Action.call.inj (Turn.action.inj heq))
    exact ⟨haccept, hlength, hkey⟩
  exact hs.turn hpermits (attends_of_worker? hbegins (fun _ _ => .inr hrests) (by simp) rfl)
    (by simp) rfl (hs.roomy.of_unchanged rfl rfl rfl)

/-- A client takes a step. -/
theorem client (hs : Serves options codec s h) {i : Nat} {task task' : Task}
    (htask : s.clients[i]? = some task) (hstep : s.stepTask task = some (t, task'))
    (hroom : t.Roomy) :
    Serves options codec { t with clients := t.clients.set i task' } (h.called s t task task') := by
  have hturn : s.turn (.action (.client i)) = some { t with clients := t.clients.set i task' } :=
    client_eq_some_iff.2 ⟨task, t, task', htask, hstep, rfl⟩
  have hpermits : s.Permits (.action (.client i)) := ⟨trivial, by simp, by simp⟩
  have hattends : s.Attends (.action (.client i)) :=
    attends_of_worker? trivial (by simp) (by simp) rfl
  have hafter := hs.turn hpermits hattends (by simp) hturn
    (hroom.of_unchanged rfl rfl rfl)
  obtain ⟨new, hcalls⟩ := calls_of_stepTask hstep
  have hi := (List.getElem?_eq_some_iff.1 htask).1
  rw [← (submitted_calls hcalls).1] at hi
  rwa [h.after_of_call _ (callStep?_eq hturn rfl htask (List.getElem?_set_self hi))] at hafter

/-- A worker takes what is next in the queue. -/
theorem take (hs : Serves options codec s h) {i : Nat} {pool : Pool Job}
    (htake : s.pool.take i = some pool) :
    Serves options codec { s with pool } h := by
  have hturn : s.turn (.action (.take i)) = some { s with pool } :=
    Option.map_eq_some_iff.2 ⟨pool, htake, rfl⟩
  have hpermits : s.Permits (.action (.take i)) := ⟨trivial, by simp, by simp⟩
  have hattends : s.Attends (.action (.take i)) :=
    attends_of_worker? trivial (by simp) (by simp) rfl
  exact hs.turn hpermits hattends (by simp) hturn
    (hs.roomy.of_unchanged rfl rfl rfl)

/-- A merge takes a step and does not fail. -/
theorem work (hs : Serves options codec s h) {i : Nat} {job : Job} {phase : Job.Phase}
    (hjob : s.pool.jobOf? i = some job) (hstep : s.stepJob job = some (t, { job with phase }))
    (hfair : phase.Fair) (hroom : t.Roomy) :
    Serves options codec { t with pool := t.pool.setWorker i (workerOf { job with phase }) }
      (h.merged t job phase) := by
  have hturn : s.turn (.action (.work i)) =
      some { t with pool := t.pool.setWorker i (workerOf { job with phase }) } :=
    work_eq_some_iff.2 ⟨job, t, _, hjob, hstep, rfl⟩
  obtain ⟨phase', new, heq, hmerges⟩ := merges_of_stepJob hstep
  obtain rfl : phase = phase' := (Job.mk.inj heq).2
  have hmerge := mergeStep?_eq (τ := .action (.work i)) hturn rfl hjob (workers_merges hmerges)
  have hpermits : s.Permits (.action (.work i)) := ⟨trivial, by simp, by simp⟩
  have hattends : s.Attends (.action (.work i)) := by
    refine ⟨trivial, by simp, by simp, fun job' phase' heq => ?_⟩
    obtain ⟨-, rfl⟩ := Prod.mk.inj (Option.some.inj (hmerge.symm.trans heq))
    exact hfair
  have hafter := hs.turn hpermits hattends (by simp) hturn
    (hroom.of_unchanged rfl rfl rfl)
  rwa [h.after_of_merge _ rfl hmerge] at hafter

/-- A client reports what it has flushed and calls the policy. -/
theorem consult (hs : Serves options codec s h) {i n : Nat} {task : Task}
    (htask : s.clients[i]? = some task) (hconsulting : task.Consulting)
    (hcourse : s.course (List.replicate n (.action (.client i))) = some t) :
    Serves options codec t h := by
  induction n generalizing s task with
  | zero =>
    obtain rfl := Option.some.inj hcourse
    exact hs
  | succ n ih =>
    obtain ⟨u, hturn, hrest⟩ := Option.bind_eq_some_iff.1 hcourse
    obtain ⟨task₀, t', task', htask₀, hstep, rfl⟩ := client_eq_some_iff.1 hturn
    obtain rfl := Option.some.inj (htask.symm.trans htask₀)
    have hinsert : ∀ key tuple, task ≠ .insert key tuple := by
      rintro key tuple rfl
      exact hconsulting
    have hflush : task ≠ .flush := by
      rintro rfl
      exact hconsulting
    obtain ⟨hsame, -⟩ := unmoved_stepTask hstep hinsert hflush
    have hnext := hs.client htask hstep
      (hs.roomy.of_unchanged hsame.files hsame.stamp hsame.serial)
    rw [h.called_of_other _ _ hinsert hflush] at hnext
    have hi := (List.getElem?_eq_some_iff.1 htask).1
    rw [← hsame.clients] at hi
    refine ih hnext (List.getElem?_set_self hi) ?_ hrest
    exact consulting_stepTask hconsulting hstep

/-- A merge that has retired its members comes to its end. -/
theorem settle (hs : Serves options codec s h) {i n : Nat}
    (hsettling : ∀ job, s.pool.jobOf? i = some job → job.phase.Settling)
    (hcourse : s.course (List.replicate n (.action (.work i))) = some t) :
    Serves options codec t h := by
  induction n generalizing s with
  | zero =>
    obtain rfl := Option.some.inj hcourse
    exact hs
  | succ n ih =>
    obtain ⟨u, hturn, hrest⟩ := Option.bind_eq_some_iff.1 hcourse
    obtain ⟨job, t', job', hjob, hstep, rfl⟩ := work_eq_some_iff.1 hturn
    obtain ⟨phase, new, rfl, hmerges⟩ := merges_of_stepJob hstep
    obtain ⟨hnext, hfiles, hstamp, hserial⟩ := settling_merges (hsettling job hjob) hmerges
    have hafter := hs.work hjob hstep hnext.fair (hs.roomy.of_unchanged hfiles hstamp hserial)
    have hbuilt : ∀ serial tuples result, job.phase = .build serial tuples →
        phase ≠ .swap result := by
      intro serial tuples result hphase
      have hbuild := hsettling job hjob
      rw [hphase] at hbuild
      exact hbuild.elim
    rw [h.merged_of_not_built _ hbuilt] at hafter
    refine ih hafter (fun job' hjob' => ?_) hrest
    obtain ⟨hi, hworker⟩ := List.getElem?_eq_some_iff.1 (Pool.jobOf?_eq_some_iff.1 hjob')
    have hbusy : workerOf { job with phase } = .busy job' :=
      (List.getElem_set_self hi).symm.trans hworker
    obtain rfl := mem_workerOf (j := job') (by rw [hbusy]; exact List.mem_singleton_self _)
    exact hnext

/-- The client that called last takes a step. -/
theorem last (hs : Serves options codec s h) {front : List Task} {task task' : Task}
    (hlast : s.clients = front ++ [task]) (hstep : s.stepTask task = some (t, task'))
    (hroom : t.Roomy) :
    Serves options codec { t with clients := front ++ [task'] } (h.called s t task task') := by
  obtain ⟨new, hcalls⟩ := calls_of_stepTask hstep
  have htask : s.clients[front.length]? = some task := hlast ▸ List.getElem?_concat_length
  have hclients : t.clients.set front.length task' = front ++ [task'] := by
    rw [(submitted_calls hcalls).1, hlast]
    simp
  exact hclients ▸ hs.client htask hstep hroom

/-- At rest a tuple is put into a memory that it does not fill. -/
theorem fill (hs : Serves options codec s h) {key : Bytes} {tuple : Tuple}
    (haccept : s.accept tuple = .ok key) (hlength : tuple.length = s.format.codec.kinds.length)
    (hkey : key.length < 2 ^ 32) (hrests : s.Rests)
    (hfull : (s.memory.insert key tuple).isFull = false) :
    Serves options codec
      { s with
        memory := s.memory.insert key tuple
        clients := s.clients ++ [.returned (.ok ())] }
      { h with pending := h.pending ++ [tuple] } := by
  have hcall := hs.insert haccept hlength hkey hrests
  have hstep : stepTask { s with clients := s.clients ++ [.insert key tuple] } (.insert key tuple) =
      some ({ s with
        memory := s.memory.insert key tuple
        clients := s.clients ++ [.insert key tuple] }, .returned (.ok ())) := by
    simp only [stepTask, hfull]
    rfl
  exact hcall.last rfl hstep (hs.roomy.of_unchanged rfl rfl rfl)

/-- At rest what is in memory is flushed. -/
theorem flush (hs : Serves options codec s h) {d : Directory} {c : Component} (hrests : s.Rests)
    (hfilled : s.memory.isEmpty = false)
    (hbuild : s.files.build s.format s.nextSerial (.single (Numeral.wrapped s.nextStamp))
      (Keyed.values s.memory.tuples) = (d, .ok c))
    (hstamp : s.nextStamp + 1 < Numeral.word) (hserial : s.nextSerial + 1 < Numeral.word)
    (hsize : c.size < Bytes.limit) :
    Serves options codec
      { s with
        files := d
        board := { s.board with roster := s.board.roster.prepend c }
        memory := s.memory.clear
        nextStamp := s.nextStamp + 1
        nextSerial := s.nextSerial + 1
        clients := s.clients ++ [.report c] }
      (h.flushed.recorded (.ofFiles d c (Keyed.values s.memory.tuples) [])) := by
  have hcall := hs.call .flush (by simp) hrests
  have hwritten : flushMemory { s with clients := s.clients ++ [.flush] } =
      ({ s with
        files := d
        board := { s.board with roster := s.board.roster.prepend c }
        memory := s.memory.clear
        nextStamp := s.nextStamp + 1
        nextSerial := s.nextSerial + 1
        clients := s.clients ++ [.flush] }, .ok (some c)) :=
    flushMemory_eq_ok_iff.2 ⟨hfilled, d, hbuild, rfl⟩
  have hstep : stepTask { s with clients := s.clients ++ [.flush] } .flush =
      some ({ s with
        files := d
        board := { s.board with roster := s.board.roster.prepend c }
        memory := s.memory.clear
        nextStamp := s.nextStamp + 1
        nextSerial := s.nextSerial + 1
        clients := s.clients ++ [.flush] }, .report c) := by
    simp only [stepTask, hwritten]
  refine hcall.last rfl hstep ⟨hstamp, hserial, ?_⟩
  exact length_of_build hbuild (Nat.le_refl _) (Numeral.wrapped_lt _) hsize hs.roomy.files

/-- The merge of a worker takes a step and does not fail. -/
theorem proceed (hs : Serves options codec s h) {i : Nat} {workers : List (Worker Job)} {job : Job}
    {phase : Job.Phase} (hi : i < workers.length)
    (hworkers : s.pool.workers = workers.set i (.busy job))
    (hstep : s.stepJob job = some (t, { job with phase })) (hfair : phase.Fair) (hroom : t.Roomy) :
    Serves options codec
      { t with pool := { t.pool with workers := workers.set i (workerOf { job with phase }) } }
      (h.merged t job phase) := by
  have hjob : s.pool.jobOf? i = some job :=
    Pool.jobOf?_eq_some_iff.2 (hworkers ▸ List.getElem?_set_self hi)
  obtain ⟨phase', new, heq, hmerges⟩ := merges_of_stepJob hstep
  have hset : t.pool.setWorker i (workerOf { job with phase }) =
      { t.pool with workers := workers.set i (workerOf { job with phase }) } := by
    rw [Pool.setWorker, workers_merges hmerges, hworkers, List.set_set]
  exact hset ▸ hs.work hjob hstep hfair hroom

/-- A merge reads its members and writes the result. -/
theorem write (hs : Serves options codec s h) {i : Nat} {workers : List (Worker Job)}
    {members : List Component} {range : Range} {tuples : List Tuple} {d : Directory}
    {result : Component} (hi : i < workers.length)
    (hworkers : s.pool.workers = workers.set i (.busy { members }))
    (hrange : Range.span (members.map Component.range) = some range)
    (hordered : range.min ≤ range.max) (hmax : range.max < Numeral.word)
    (hmerged : s.merged members = .ok tuples)
    (hbuild : s.files.build s.format s.nextSerial range tuples = (d, .ok result))
    (hserial : s.nextSerial + 1 < Numeral.word) (hsize : result.size < Bytes.limit) :
    Serves options codec
      { s with
        files := d
        nextSerial := s.nextSerial + 1
        pool := { s.pool with workers := workers.set i (.busy ⟨members, .swap result⟩) } }
      (h.recorded (.ofFiles d result tuples members)) := by
  have hroom := hs.roomy
  let stage (files : Directory) (serial : Nat) (phase : Job.Phase) : Store :=
    { s with
      files
      nextSerial := serial
      pool := { s.pool with workers := workers.set i (.busy ⟨members, phase⟩) } }
  have hread : s.stepJob { members } = some (s, ⟨members, .number tuples⟩) := by
    simp only [stepJob, Job.range?, hrange, hmerged]
  have hnumber : (stage s.files s.nextSerial (.number tuples)).stepJob ⟨members, .number tuples⟩ =
      some (stage s.files (s.nextSerial + 1) (.number tuples),
        ⟨members, .build s.nextSerial tuples⟩) := rfl
  have hwrite : (stage s.files (s.nextSerial + 1) (.build s.nextSerial tuples)).stepJob
      ⟨members, .build s.nextSerial tuples⟩ =
        some (stage d (s.nextSerial + 1) (.build s.nextSerial tuples),
          ⟨members, .swap result⟩) := by
    simp only [stage, stepJob, Job.range?, hrange, hbuild]
  have hready := hs.proceed hi hworkers hread trivial hroom
  have hnumbered := hready.proceed hi rfl hnumber trivial ⟨hroom.stamps, hserial, hroom.files⟩
  exact hnumbered.proceed hi rfl hwrite trivial
    ⟨hroom.stamps, hserial, length_of_build hbuild hordered hmax hsize hroom.files⟩

/-- A merge that has put its result in place makes its members inactive. -/
theorem retire (hs : Serves options codec s h) {i : Nat} {workers : List (Worker Job)}
    {members rest : List Component} {result : Component} (hi : i < workers.length)
    (hworkers : s.pool.workers = workers.set i (.busy ⟨members, .retire result rest⟩))
    (hclaimed : ∀ c ∈ rest, s.state c = .merging) (hnodup : (rest.map Component.serial).Nodup) :
    Serves options codec
      { s with
        board := { s.board with
          states := rest.foldl (fun states c => states.set c.serial .inactive) s.board.states }
        retired := s.retired ++ rest
        pool := { s.pool with workers := workers.set i (.busy ⟨members, .succeed result⟩) } }
      h := by
  have hroom := hs.roomy
  induction rest generalizing s with
  | nil =>
    have hstep : s.stepJob ⟨members, .retire result []⟩ =
      some (s, ⟨members, .succeed result⟩) := rfl
    rw [List.append_nil]
    exact hs.proceed hi hworkers hstep trivial hroom
  | cons c rest ih =>
    rw [List.forall_mem_cons] at hclaimed
    rw [List.map_cons, List.nodup_cons] at hnodup
    have hmove : s.move c .replace = .ok (s.moved c .replace) := move_eq_ok_iff.2 ⟨hclaimed.1, rfl⟩
    have hstep : s.stepJob ⟨members, .retire result (c :: rest)⟩ =
        some ({ s.moved c .replace with retired := s.retired ++ [c] },
          ⟨members, .retire result rest⟩) := by
      simp only [stepJob, hmove]
      rfl
    have hstates : ∀ other ∈ rest, (s.moved c .replace).state other = .merging := by
      intro other hother
      have hne : other.serial ≠ c.serial := fun heq =>
        hnodup.1 (heq ▸ List.mem_map_of_mem hother)
      have hclaimed := hclaimed.2 other hother
      rw [state, Board.state] at hclaimed ⊢
      rw [← hclaimed]
      exact (Lifecycle.state_set _ _ _ _).trans (if_neg hne)
    have hnext := hs.proceed hi hworkers hstep trivial (hroom.of_unchanged rfl rfl rfl)
    have hend := ih hnext rfl hstates hnodup.2 (hroom.of_unchanged rfl rfl rfl)
    rw [← List.append_cons] at hend
    exact hend

/-- What a merge of all components listed reads is known by the history. -/
theorem merged_newestFirst (hs : Serves options codec s h) {records : List Record}
    (hrecords : ∀ a ∈ records, a ∈ h.annals)
    (hlist : s.board.roster.newestFirst = records.map Record.component) :
    s.merged s.board.roster.newestFirst = .ok (Keyed.values
      ((Reading.ofCodec codec options.keyFields).overlay [] records.reverse)) := by
  obtain ⟨listed, known, hi⟩ := intact_of_reached hs.reached
  rw [Roster.newestFirst_of_lists hi.lists] at hlist ⊢
  obtain rfl := hi.annals.eq_of_map_eq hi.listedIn hrecords hlist
  exact merged_eq hi.format hi.presents.sound

end Serves

/-! ## A merge of two components -/

/-- The options under which all components are merged as soon as there are two. -/
def pairs : Options :=
  { policy := "constant", properties := [(Setting.componentLimit.name, "2")] }

variable (o : Options) (d : Directory) (older newer result : Component)

/-- An index that merges all components as soon as there are two. -/
def pairing : Store where
  options := o
  policy := .all 2
  format := o.format (.plain [.varying, .varying])
  files := {}
  memory := { budget := o.budget }
  pool := .start 1

/-- A first component has been flushed, and all calls have returned. -/
def pairingOne : Store :=
  { pairing o with
    files := d
    board := { roster := ({} : Roster).prepend older, metrics := ({} : Metrics).record .flush }
    nextStamp := 1
    nextSerial := 1
    events := [.flushed older .readable]
    clients := [.returned (.ok ()), .returned (.ok ())] }

/-- A second one has been flushed, and a worker is at the merge of both. -/
def pairingTwo (serial : Nat) (phase : Job.Phase) : Store :=
  { pairing o with
    files := d
    board := {
      roster := (({} : Roster).prepend older).prepend newer
      states := (({} : Lifecycle).set newer.serial .merging).set older.serial .merging
      metrics := ((({} : Metrics).record .flush).record .flush).record .scheduled }
    nextStamp := 2
    nextSerial := serial
    inFlight := 1
    pool := { workers := [.busy ⟨[newer, older], phase⟩] }
    events := [.flushed older .readable, .flushed newer .readable]
    clients := List.replicate 4 (.returned (.ok ())) }

/-- The result is in the place of both. -/
def pairingDone (states : Lifecycle) (retired : List Component) (phase : Job.Phase) : Store :=
  { pairingTwo o d older newer 3 phase with
    board := { (pairingTwo o d older newer 3 phase).board with
      roster := ({} : Roster).prepend result
      states }
    retired }

variable {o d older newer result}

theorem fits_pairs : pairs.Fits 1 := ⟨rfl, ⟨.all 2, by decide +kernel⟩, by decide⟩

theorem serves_pairing : Serves pairs (.plain [.varying, .varying]) (pairing pairs) {} :=
  .opened (openOn_nothing _ (by decide +kernel) (by decide))

theorem accept_pairing (hformat : s.format = (pairing pairs).format) {tuple : Tuple}
    (htuple : tuple = [[107], [1]] ∨ tuple = [[107], [2]]) : s.accept tuple = .ok [1, 107] := by
  have hbytes : tuple.keyBytes s.format.keyFields = [1, 107] := by
    rw [hformat]
    rcases htuple with rfl | rfl <;> decide +kernel
  have hrequired : s.format.codec.required tuple = .ok 5 := by
    rw [hformat]
    rcases htuple with rfl | rfl <;> decide +kernel
  have hwrite : (s.format.codec.write tuple (Bytes.zeros 5) 0).2 = .ok 5 := by
    rw [hformat]
    rcases htuple with rfl | rfl <;> decide +kernel
  rw [← hbytes]
  refine accept_eq ?_ hrequired hwrite
  rw [hformat]
  rcases htuple with rfl | rfl <;> decide +kernel

/-- A component of one tuple is written. What its filter is does not matter. -/
theorem build_pairing (d : Directory) (serial : Nat) (range : Range) {tuple : Tuple}
    (htuple : tuple = [[107], [1]] ∨ tuple = [[107], [2]]) :
    ∃ d' size contents, d.build (pairing pairs).format serial range [tuple] =
      (d', .ok ⟨serial, range, size, contents⟩) ∧ size < Bytes.limit := by
  let writer : Writer := {
    format := (pairing pairs).format
    draft := { codec := .plain [.varying, .varying], capacity := 4096 } }
  have hstart : Writer.start (pairing pairs).format = .ok writer := rfl
  have hadd : (writer.addAll [tuple]).2 = .ok () := by
    rcases htuple with rfl | rfl <;> decide +kernel
  have hsmall : (writer.addAll [tuple]).1.closeBlock.written.length +
      ((writer.addAll [tuple]).1.closeBlock.entries.flatMap IndexEntry.encode).length < 2 ^ 31 := by
    rcases htuple with rfl | rfl <;> decide +kernel
  have hrate : Bloom.validRate (writer.addAll [tuple]).1.closeBlock.format.rate = true := by
    rcases htuple with rfl | rfl <;> decide +kernel
  obtain ⟨d', ⟨serial', range', size, contents⟩, hbuild, hsize⟩ :=
    d.exists_build hstart (Prod.ext rfl hadd) hrate serial range
  obtain rfl : serial' = serial := Directory.serial_build hbuild
  obtain rfl : range' = range := Directory.range_build hbuild
  have hlimit : 2 ^ 31 + 2 ^ 31 < Bytes.limit := by decide
  exact ⟨d', size, contents, hbuild,
    Nat.lt_trans hsize (Nat.lt_trans (Nat.add_lt_add_right hsmall _) hlimit)⟩

/-- A first component is flushed. There is nothing to merge. -/
theorem serves_pairingOne : ∃ d size contents,
    Serves pairs (.plain [.varying, .varying]) (pairingOne pairs d ⟨0, .single 0, size, contents⟩)
      { durable := [[[107], [1]]]
        annals := [.ofFiles d ⟨0, .single 0, size, contents⟩ [[[107], [1]]] []] } := by
  obtain ⟨d, size, contents, hbuild, hsize⟩ := build_pairing {} 0 (.single 0) (.inl rfl)
  let c : Component := ⟨0, .single 0, size, contents⟩
  let flushed (o : Options) : Store :=
    { pairing o with
      files := d
      board := { roster := ({} : Roster).prepend c }
      nextStamp := 1
      nextSerial := 1
      clients := [.returned (.ok ()), .report c] }
  have hfilled := serves_pairing.fill (accept_pairing rfl (.inl rfl)) rfl (by decide)
    ⟨by simp [pairing], rfl⟩ rfl
  have hflushed : Serves pairs (.plain [.varying, .varying]) (flushed pairs) _ :=
    hfilled.flush ⟨List.forall_mem_singleton.2 rfl, rfl⟩ rfl hbuild (by decide) (by decide) hsize
  have hcourse : ∀ o, (flushed o).course (List.replicate 5 (.action (.client 1))) =
      some (pairingOne o d c) := fun _ => rfl
  have hreport : (flushed pairs).clients[1]? = some (.report c) := rfl
  exact ⟨d, size, contents, hflushed.consult hreport trivial (hcourse pairs)⟩

/-- A second one is flushed, and a merge of both is scheduled. -/
theorem serves_pairingTwo : ∃ d d' size contents size' contents',
    Serves pairs (.plain [.varying, .varying])
      (pairingTwo pairs d' ⟨0, .single 0, size, contents⟩ ⟨1, .single 1, size', contents'⟩ 2 .read)
      { durable := [[[107], [1]], [[107], [2]]]
        annals := [.ofFiles d' ⟨1, .single 1, size', contents'⟩ [[[107], [2]]] [],
          .ofFiles d ⟨0, .single 0, size, contents⟩ [[[107], [1]]] []] } := by
  obtain ⟨d, size, contents, hone⟩ := serves_pairingOne
  obtain ⟨d', size', contents', hbuild, hsize⟩ := build_pairing d 1 (.single 1) (.inr rfl)
  let older : Component := ⟨0, .single 0, size, contents⟩
  let newer : Component := ⟨1, .single 1, size', contents'⟩
  let flushed (o : Options) : Store :=
    { pairingOne o d older with
      files := d'
      board := { (pairingOne o d older).board with
        roster := (({} : Roster).prepend older).prepend newer }
      nextStamp := 2
      nextSerial := 2
      clients := List.replicate 3 (.returned (.ok ())) ++ [.report newer] }
  have hword : 1 + 1 < Numeral.word := by decide
  have hfilled := hone.fill (accept_pairing rfl (.inr rfl)) rfl (by decide)
    ⟨by simp [pairingOne, Task.answer?], rfl⟩ rfl
  have hflushed : Serves pairs (.plain [.varying, .varying]) (flushed pairs) _ :=
    hfilled.flush ⟨by simp [pairingOne, Task.answer?], rfl⟩ rfl hbuild hword hword hsize
  let claimed (o : Options) : Store :=
    { pairingTwo o d' older newer 2 .read with
      board := { (pairingTwo o d' older newer 2 .read).board with
        metrics := (({} : Metrics).record .flush).record .flush }
      inFlight := 0
      pool := { workers := [.idle] }
      clients := List.replicate 3 (.returned (.ok ())) ++ [.consult (.scheduling
        { policy := .all 2, full := false, phase := .ordered (.run [newer, older]) }
        (.claim false [newer, older] []))] }
  have hclaim : ∀ o, (flushed o).course (List.replicate 8 (.action (.client 3))) =
      some (claimed o) := fun _ => rfl
  have hsubmit : ∀ o, (claimed o).course (List.replicate 5 (.action (.client 3))) =
      some { pairingTwo o d' older newer 2 .read with
        pool := { queue := [.run { members := [newer, older] }], workers := [.idle] } } :=
    fun _ => rfl
  have hreport : (flushed pairs).clients[3]? = some (.report newer) := rfl
  have hconsult : (claimed pairs).clients[3]? = some (.consult _) := rfl
  have hclaimed := hflushed.consult hreport trivial (hclaim pairs)
  exact ⟨d, d', size, contents, size', contents',
    (hclaimed.consult hconsult trivial (hsubmit pairs)).take (i := 0) rfl⟩

/-- The merge reads both and writes its result. -/
theorem serves_merged : ∃ d size₀ contents₀ size₁ contents₁ size₂ contents₂ annals,
    Serves pairs (.plain [.varying, .varying])
      (pairingTwo pairs d ⟨0, .single 0, size₀, contents₀⟩ ⟨1, .single 1, size₁, contents₁⟩ 3
        (.swap ⟨2, ⟨0, 1⟩, size₂, contents₂⟩))
      { durable := [[[107], [1]], [[107], [2]]], annals } := by
  obtain ⟨d₀, d₁, size₀, contents₀, size₁, contents₁, hboth⟩ := serves_pairingTwo
  obtain ⟨d₂, size₂, contents₂, hbuild, hsize⟩ := build_pairing d₁ 2 ⟨0, 1⟩ (.inr rfl)
  let older : Component := ⟨0, .single 0, size₀, contents₀⟩
  let newer : Component := ⟨1, .single 1, size₁, contents₁⟩
  let records : List Record := [.ofFiles d₁ newer [[[107], [2]]] [],
    .ofFiles d₀ older [[[107], [1]]] []]
  have hvalues : Keyed.values ((Reading.ofCodec (.plain [.varying, .varying]) 1).overlay []
      records.reverse) = [[[107], [2]]] := by
    simp only [records, Reading.overlay, List.reverse_cons, List.reverse_nil, List.nil_append,
      List.singleton_append, List.foldl_cons, List.foldl_nil, Record.ofFiles]
    decide +kernel
  have hmerged : (pairingTwo pairs d₁ older newer 2 .read).merged [newer, older] =
      .ok [[[107], [2]]] :=
    (hboth.merged_newestFirst (fun a ha => ha) (rfl : _ = records.map Record.component)).trans
      (congrArg Except.ok hvalues)
  have hspan : Range.span ([newer, older].map Component.range) = some ⟨0, 1⟩ := rfl
  have hworkers : (pairingTwo pairs d₁ older newer 2 .read).pool.workers =
    [Worker.idle].set 0 (.busy { members := [newer, older] }) := rfl
  have hword : 2 + 1 < Numeral.word := by decide
  exact ⟨d₂, size₀, contents₀, size₁, contents₁, size₂, contents₂, _,
    hboth.write (by decide) hworkers hspan (by decide) (by decide) hmerged hbuild hword hsize⟩

/-- The result takes the place of both, and the policy is called for it. -/
theorem exists_rests_of_merged {size₀ size₁ size₂ : Nat}
    {contents₀ contents₁ contents₂ : Option Contents}
    (hs : Serves pairs (.plain [.varying, .varying])
      (pairingTwo pairs d ⟨0, .single 0, size₀, contents₀⟩ ⟨1, .single 1, size₁, contents₁⟩ 3
        (.swap ⟨2, ⟨0, 1⟩, size₂, contents₂⟩)) h) :
    ∃ t, Serves pairs (.plain [.varying, .varying]) t h ∧ t.Rests ∧
      t.board.roster.newestFirst = [⟨2, ⟨0, 1⟩, size₂, contents₂⟩] := by
  let older : Component := ⟨0, .single 0, size₀, contents₀⟩
  let newer : Component := ⟨1, .single 1, size₁, contents₁⟩
  let result : Component := ⟨2, ⟨0, 1⟩, size₂, contents₂⟩
  let claimed : Lifecycle := (({} : Lifecycle).set 1 .merging).set 0 .merging
  have hswap : ∀ o, (pairingTwo o d older newer 3 (.swap result)).stepJob
      ⟨[newer, older], .swap result⟩ =
        some (pairingDone o d older newer result claimed [] (.swap result),
          ⟨[newer, older], .retire result [newer, older]⟩) := fun _ => rfl
  have hbusy : (pairingTwo pairs d older newer 3 (.swap result)).pool.workers =
    [Worker.idle].set 0 (.busy ⟨[newer, older], .swap result⟩) := rfl
  have hswapped := hs.proceed (by decide) hbusy (hswap pairs) trivial
    (hs.roomy.of_unchanged rfl rfl rfl)
  have hclaimed : ∀ c ∈ [newer, older], claimed.state c.serial = .merging := by
    simp [claimed, newer, older]
  have hnodup : ([newer, older].map Component.serial).Nodup := by simp [newer, older]
  have hretired := hswapped.retire (by decide) rfl hclaimed hnodup
  have hcourse : ∀ o, ∃ t, course (pairingDone o d older newer result
      ((claimed.set 1 .inactive).set 0 .inactive) [newer, older] (.succeed result))
        (List.replicate 9 (.action (.work 0))) = some t ∧ t.board.roster.newestFirst = [result] ∧
      t.inFlight = 0 ∧ t.clients = List.replicate 4 (.returned (.ok ())) :=
    fun o => ⟨_, rfl, rfl, rfl, rfl⟩
  obtain ⟨t, hturns, hlist, hlanded, hclients⟩ := hcourse pairs
  refine ⟨t, hretired.settle (fun job hjob => ?_) hturns, ⟨?_, hlanded⟩, hlist⟩
  · obtain rfl := Option.some.inj hjob
    trivial
  · rw [hclients]
    exact List.forall_mem_replicate.2 (.inr rfl)

/-- An index merges a component with a newer one that has the same key: before and after the result
takes the place of both. -/
structure Pairs (s t : Store) (h : History) (older newer result : Component) : Prop where
  before : Serves pairs (.plain [.varying, .varying]) s h
  listed : s.board.roster.newestFirst = [newer, older]
  pends : s.Pends result
  ranges : older.range = .single 0 ∧ newer.range = .single 1 ∧ result.range = ⟨0, 1⟩
  after : Serves pairs (.plain [.varying, .varying]) t h
  rests : t.Rests
  swapped : t.board.roster.newestFirst = [result]
  durable : h.durable = [[[107], [1]], [[107], [2]]]
  pending : h.pending = []

theorem exists_pairs : ∃ s t h older newer result, Pairs s t h older newer result := by
  obtain ⟨d, size₀, contents₀, size₁, contents₁, size₂, contents₂, annals, hs⟩ := serves_merged
  obtain ⟨t, ht, hrests, hlist⟩ := exists_rests_of_merged hs
  exact ⟨_, t, _, _, _, _, {
    before := hs
    listed := rfl
    pends := ⟨_, List.mem_singleton_self _, rfl⟩
    ranges := ⟨rfl, rfl, rfl⟩
    after := ht
    rests := hrests
    swapped := hlist
    durable := rfl
    pending := rfl }⟩

end Store

end Strata
