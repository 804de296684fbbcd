import Strata.Proofs.Store.History
import Strata.Proofs.Store.Parties

/-!
# What stays intact

In every state an index can come to, the files of all components listed are in place and hold what
their records say; the records, newest first, have for every key the last tuple that was flushed;
and every component file that was ever written is a listed one, a result that waits to be put in
place, or went into one of these.
-/

namespace Strata

/-- A tuple that can be stored and read back. -/
structure Reading.Takes (r : Reading) (t : Tuple) : Prop where
  kinds : 0 < r.codec.kinds.length
  kept : r.codec.Keeps t
  key : (r.keyOf t).length < 2 ^ 32

/-- Tuples are what a merge has read of its members. -/
def Reading.Gathers (r : Reading) (annals : List Record) (members : List Component)
    (tuples : List Tuple) : Prop :=
  r.Admits tuples ∧ ∃ parts range, (∀ p ∈ parts, p ∈ annals) ∧
    parts.map Record.component = members ∧ r.Makes parts range tuples

/-- What a merge carries with it is true: the tuples of its members, and the record of its result.
-/
def Job.Sound (r : Reading) (annals : List Record) (job : Job) : Prop :=
  match job.phase with
  | .number tuples => r.Gathers annals job.members tuples
  | .build _ tuples => r.Gathers annals job.members tuples
  | .swap result => job.members ≠ [] ∧
    ∃ a ∈ annals, a.component = result ∧ a.members = job.members
  | _ => True

/-- The count a merge has taken for its result belongs to no record. -/
def Job.Fresh (annals : List Record) (job : Job) : Prop :=
  ∀ serial tuples, job.phase = .build serial tuples → ∀ a ∈ annals, a.component.serial ≠ serial

/-- What a call carries with it is true: the key of the tuple it inserts. -/
def Task.Sound (r : Reading) : Task → Prop
  | .insert key tuple => key = r.keyOf tuple ∧ r.Takes tuple
  | _ => True

theorem Record.Input.mono {annals more : List Record} (hsub : ∀ a ∈ annals, a ∈ more)
    {a b : Record} (h : Record.Input annals a b) : Record.Input more a b :=
  ⟨hsub a h.1, hsub b h.2.1, h.2.2⟩

theorem Record.line_mono {annals more : List Record} (hsub : ∀ a ∈ annals, a ∈ more) {a b : Record}
    (h : Relation.ReflTransGen (Record.Input annals) a b) :
    Relation.ReflTransGen (Record.Input more) a b :=
  h.lift id fun _ _ => Record.Input.mono hsub

theorem Job.Sound.mono {r : Reading} {annals more : List Record} (hsub : ∀ a ∈ annals, a ∈ more)
    {job : Job} (h : job.Sound r annals) : job.Sound r more := by
  have hgathers : ∀ {members tuples}, r.Gathers annals members tuples →
      r.Gathers more members tuples := by
    rintro members tuples ⟨hadmits, parts, range, hparts, hrest⟩
    exact ⟨hadmits, parts, range, fun p hp => hsub p (hparts p hp), hrest⟩
  obtain ⟨members, phase⟩ := job
  cases phase with
  | number tuples => exact hgathers h
  | build serial tuples => exact hgathers h
  | swap result =>
    obtain ⟨hmembers, a, ha, hrest⟩ := h
    exact ⟨hmembers, a, hsub a ha, hrest⟩
  | _ => trivial

/-- A record of a new component may be added. -/
theorem Annals.cons {r : Reading} {annals : List Record} (h : Annals r annals) {a : Record}
    (ha : a.Sound r) (hnew : ∀ b ∈ annals, b.component.serial ≠ a.component.serial)
    (hmade : a.members ≠ [] → ∃ parts, (∀ p ∈ parts, p ∈ annals) ∧
      parts.map Record.component = a.members ∧ r.Makes parts a.component.range a.tuples) :
    Annals r (a :: annals) where
  sound := List.forall_mem_cons.2 ⟨ha, h.sound⟩
  serials := by
    refine List.nodup_cons.2 ⟨fun hmem => ?_, h.serials⟩
    obtain ⟨b, hb, heq⟩ := List.mem_map.1 hmem
    exact hnew b hb heq
  made := by
    have hmore : ∀ {parts : List Record}, (∀ p ∈ parts, p ∈ annals) →
        ∀ p ∈ parts, p ∈ a :: annals :=
      fun hparts p hp => List.mem_cons_of_mem _ (hparts p hp)
    rw [List.forall_mem_cons]
    refine ⟨fun hmembers => ?_, fun b hb hmembers => ?_⟩
    · obtain ⟨parts, hparts, hrest⟩ := hmade hmembers
      exact ⟨parts, hmore hparts, hrest⟩
    · obtain ⟨parts, hparts, hrest⟩ := h.made b hb hmembers
      exact ⟨parts, hmore hparts, hrest⟩

theorem Record.ofFiles_built {files d : Directory} {c : Component} {file : Bytes}
    (hfiles : files = d.write (FileName.ofComponent c.id c.range) file) (tuples : List Tuple)
    (members : List Component) :
    Record.ofFiles files c tuples members = ⟨c, file, tuples, members⟩ := by
  rw [Record.ofFiles, hfiles, Directory.find?_write, if_pos rfl]
  rfl

/-- Of the component files, only the one that was written has changed. -/
theorem Directory.find?_built (d : Directory) {name other : String} (file : Bytes)
    (hother : FileName.isComponent other = true) :
    ((d.erase (FileName.draft name)).write name file).find? other =
      if other = name then some file else d.find? other := by
  rw [find?_write, find?_erase]
  split
  · rfl
  · rw [if_neg]
    rintro rfl
    rw [FileName.isComponent_draft] at hother
    contradiction

/-- A file under construction changes no component file. -/
theorem Directory.find?_write_draft (d : Directory) (name : String) (file : Bytes) {other : String}
    (hother : FileName.isComponent other = true) :
    (d.write (FileName.draft name) file).find? other = d.find? other := by
  rw [find?_write, if_neg]
  rintro rfl
  rw [FileName.isComponent_draft] at hother
  contradiction

namespace Store

/-- A result waits to be put in place. -/
def Pends (s : Store) (c : Component) : Prop := ∃ job ∈ s.pool.jobs, job.phase = .swap c

/-- An index with its history: the records of the components listed, newest first, and all
components that have been listed. -/
structure Intact (r : Reading) (s : Store) (h : History) (listed : List Record)
    (known : List Component) : Prop where
  format : s.format.reading = r
  keyFields : 0 < r.keyFields
  annals : Annals r h.annals
  lists : s.board.roster.Lists (listed.map Record.component)
  orderly : (s.desk (listed.map Record.component) known).Orderly s.parties
  serials : s.nextSerial < Numeral.word
  stamps : s.nextStamp < Numeral.word
  low : ∀ a ∈ h.annals, a.component.serial < s.nextSerial ∧ a.component.range.max < s.nextStamp
  listedIn : ∀ a ∈ listed, a ∈ h.annals
  knownIn : ∀ c ∈ known, ∃ a ∈ h.annals, a.component = c
  sorted : s.files.Sorted
  written : ∀ name file, FileName.isComponent name = true → s.files.find? name = some file →
    ∃ a ∈ h.annals, a.name = name ∧ a.file = file
  stored : ∀ a ∈ h.annals, a ∈ listed ∨ s.Pends a.component → a.LiesIn s.files
  line : ∀ a ∈ h.annals, ∃ top ∈ h.annals, (top ∈ listed ∨ s.Pends top.component) ∧
    Relation.ReflTransGen (Record.Input h.annals) a top
  newer : listed.Pairwise Record.Newer
  durable : ∀ key, r.newest listed key = Keyed.find? (Tuple.keyed r.keyFields h.durable).reverse key
  memory : s.memory.tuples = Keyed.insertAll [] (Tuple.keyed r.keyFields h.pending)
  pending : ∀ t ∈ h.pending, r.Takes t
  jobs : ∀ job ∈ s.pool.jobs, job.Sound r h.annals ∧ job.Fresh h.annals
  tasks : ∀ task ∈ s.clients, task.Sound r
  retired : ∀ c ∈ s.retired, c ∈ known ∧ c ∉ listed.map Record.component

/-- The pool takes in at most a merge that is about to begin. -/
def Submits (s t : Store) : Prop :=
  t.pool = s.pool ∨ ∃ members, s.pool.submit { members } = .ok t.pool

/-- A step touches neither files nor tuples nor the list of components. -/
structure Unmoved (s t : Store) : Prop where
  format : t.format = s.format
  files : t.files = s.files
  memory : t.memory = s.memory
  roster : t.board.roster = s.board.roster
  stamp : t.nextStamp = s.nextStamp
  serial : t.nextSerial = s.nextSerial
  retired : t.retired = s.retired
  clients : t.clients = s.clients

theorem unmoved_consults {s t : Store} {k k' : Consultation} {new : List Job}
    (hstep : s.Consults k t k' new) : s.Unmoved t := by
  obtain ⟨full, count, states, tracker, metrics, pool, rfl⟩ := frame_consults hstep
  exact ⟨rfl, rfl, rfl, rfl, rfl, rfl, rfl, rfl⟩

/-- Only the insertion of a tuple and a flush touch tuples. -/
theorem unmoved_stepTask {s t : Store} {task task' : Task}
    (hstep : s.stepTask task = some (t, task'))
    (hinsert : ∀ key tuple, task ≠ .insert key tuple) (hflush : task ≠ .flush) :
    s.Unmoved t ∧ ∀ r, task'.Sound r := by
  obtain ⟨new, hcalls⟩ := calls_of_stepTask hstep
  cases hcalls with
  | insert => exact absurd rfl (hinsert _ _)
  | flushFails => exact absurd rfl hflush
  | flushNone => exact absurd rfl hflush
  | flush => exact absurd rfl hflush
  | consult hconsults => exact ⟨unmoved_consults hconsults, fun _ => trivial⟩
  | requested htask =>
    refine ⟨⟨rfl, rfl, rfl, rfl, rfl, rfl, rfl, rfl⟩, fun _ => ?_⟩
    rcases htask with rfl | rfl <;> trivial
  | draining htask =>
    refine ⟨⟨rfl, rfl, rfl, rfl, rfl, rfl, rfl, rfl⟩, fun _ => ?_⟩
    rcases htask with rfl | rfl <;> trivial
  | drowse htask =>
    refine ⟨⟨rfl, rfl, rfl, rfl, rfl, rfl, rfl, rfl⟩, fun _ => ?_⟩
    rcases htask with rfl | rfl <;> trivial
  | _ => exact ⟨⟨rfl, rfl, rfl, rfl, rfl, rfl, rfl, rfl⟩, fun _ => trivial⟩

variable {r : Reading} {s t : Store} {h : History} {listed : List Record} {known : List Component}

theorem OrderlyAfter.submits {cs ds : List Component} {p : Party} {rest : List Party}
    (hafter : OrderlyAfter s t cs ds p rest) : s.Submits t := by
  rcases hafter with ⟨hpool, -⟩ | ⟨members, hsubmit, -⟩
  · exact .inl hpool
  · exact .inr ⟨members, hsubmit⟩

theorem mem_jobs_of_submits (hsubmits : s.Submits t) :
    ∃ new : List Job, (∀ j ∈ new, j.phase = .read) ∧
      ∀ j, j ∈ t.pool.jobs ↔ j ∈ new ∨ j ∈ s.pool.jobs := by
  rcases hsubmits with hpool | ⟨members, hsubmit⟩
  · exact ⟨[], by simp, by simp [hpool]⟩
  · refine ⟨[{ members }], by simp, fun j => ?_⟩
    rw [(Pool.jobs_submit hsubmit).2.mem_iff, List.mem_cons, List.mem_singleton]

theorem mem_workerOf {job j : Job} (hj : j ∈ (workerOf job).job?.toList) : j = job := by
  unfold workerOf at hj
  split at hj
  · simp [Worker.job?] at hj
  · split at hj
    · simp [Worker.job?] at hj
    · simpa [Worker.job?, eq_comm] using hj

theorem mem_workerOf_swap {job : Job} {c : Component} (hphase : job.phase = .swap c) :
    job ∈ (workerOf job).job?.toList := by
  obtain ⟨members, phase⟩ := job
  obtain rfl : phase = .swap c := hphase
  exact List.mem_singleton_self _

/-- The jobs there are after a step of one of them. -/
theorem mem_jobs_work {i : Nat} {job : Job} {others : List Job}
    (hjob : s.pool.jobOf? i = some job) (hothers : s.pool.jobs.Perm (job :: others))
    (hsubmits : s.Submits t) (job' : Job) :
    ∃ new : List Job, (∀ j ∈ new, j.phase = .read) ∧
      ∀ j, j ∈ (t.pool.setWorker i (workerOf job')).jobs ↔
        j ∈ (workerOf job').job?.toList ∨ j ∈ new ∨ j ∈ others := by
  rcases hsubmits with hpool | ⟨members, hsubmit⟩
  · refine ⟨[], by simp, fun j => ?_⟩
    rw [hpool, (Pool.jobs_setWorker hjob hothers _).mem_iff, List.mem_append]
    simp
  · refine ⟨[{ members }], by simp, fun j => ?_⟩
    rw [(Pool.jobs_submit_setWorker hjob hsubmit hothers _).mem_iff, List.mem_append,
      List.mem_cons, List.mem_singleton]

theorem sound_of_read {annals : List Record} {job : Job} (hphase : job.phase = .read) :
    job.Sound r annals ∧ job.Fresh annals := by
  obtain ⟨members, phase⟩ := job
  obtain rfl : phase = .read := hphase
  exact ⟨trivial, fun _ _ heq => nomatch heq⟩

/-- A client may have submitted a merge; no result waits for it. -/
theorem pends_of_submits (hsubmits : s.Submits t) (c : Component) : t.Pends c ↔ s.Pends c := by
  obtain ⟨new, hnew, hjobs⟩ := mem_jobs_of_submits hsubmits
  constructor
  · rintro ⟨j, hj, hphase⟩
    rcases (hjobs j).1 hj with hj | hj
    · rw [hnew j hj] at hphase
      contradiction
    · exact ⟨j, hj, hphase⟩
  · rintro ⟨j, hj, hphase⟩
    exact ⟨j, (hjobs j).2 (.inr hj), hphase⟩

theorem forall_jobs_submits {p : Job → Prop} (hsubmits : s.Submits t)
    (hread : ∀ j, j.phase = .read → p j) (hall : ∀ j ∈ s.pool.jobs, p j) :
    ∀ j ∈ t.pool.jobs, p j := by
  obtain ⟨new, hnew, hmem⟩ := mem_jobs_of_submits hsubmits
  intro j hj
  rcases (hmem j).1 hj with hj | hj
  · exact hread j (hnew j hj)
  · exact hall j hj

/-- The results that wait: that of one merge, and those of others. -/
theorem pends_iff {job : Job} {others : List Job} (hothers : s.pool.jobs.Perm (job :: others))
    (c : Component) : s.Pends c ↔ job.phase = .swap c ∨ ∃ j ∈ others, j.phase = .swap c := by
  simp only [Pends, hothers.mem_iff, List.mem_cons, exists_eq_or_imp]

/-- The results that wait after a step of a merge. -/
theorem pends_work {i : Nat} {job : Job} {others : List Job}
    (hjob : s.pool.jobOf? i = some job) (hothers : s.pool.jobs.Perm (job :: others))
    (hsubmits : s.Submits t) (job' : Job) (c : Component) :
    Pends { t with pool := t.pool.setWorker i (workerOf job') } c ↔
      job'.phase = .swap c ∨ ∃ j ∈ others, j.phase = .swap c := by
  obtain ⟨new, hnew, hafter⟩ := mem_jobs_work hjob hothers hsubmits job'
  constructor
  · rintro ⟨j, hj, hphase⟩
    rcases (hafter j).1 hj with hj | hj | hj
    · rw [mem_workerOf hj] at hphase
      exact .inl hphase
    · rw [hnew j hj] at hphase
      contradiction
    · exact .inr ⟨j, hj, hphase⟩
  · rintro (hphase | ⟨j, hj, hphase⟩)
    · exact ⟨job', (hafter job').2 (.inl (mem_workerOf_swap hphase)), hphase⟩
    · exact ⟨j, (hafter j).2 (.inr (.inr hj)), hphase⟩

/-- The count a merge has taken is below the next one. -/
theorem taken {listed : List Component} (horderly : (s.desk listed known).Orderly s.parties)
    {job : Job} {serial : Nat} {tuples : List Tuple} (hjob : job ∈ s.pool.jobs)
    (hphase : job.phase = .build serial tuples) : serial < s.nextSerial := by
  refine ((horderly.admits _ (mem_parties hjob)).making serial ?_).1
  rw [Job.party, hphase]
  exact List.mem_singleton_self serial

/-- What holds of all jobs, and of one that is about to begin, holds of them after a step of one. -/
theorem forall_jobs_work {p : Job → Prop} {i : Nat} {job job' : Job} {others : List Job}
    (hjob : s.pool.jobOf? i = some job) (hothers : s.pool.jobs.Perm (job :: others))
    (hsubmits : s.Submits t) (hread : ∀ j, j.phase = .read → p j) (hall : ∀ j ∈ others, p j)
    (hjob' : p job') : ∀ j ∈ (t.pool.setWorker i (workerOf job')).jobs, p j := by
  obtain ⟨new, hnew, hafter⟩ := mem_jobs_work hjob hothers hsubmits job'
  intro j hj
  rcases (hafter j).1 hj with hj | hj | hj
  · rw [mem_workerOf hj]
    exact hjob'
  · exact hread j (hnew j hj)
  · exact hall j hj

namespace Intact

/-- The records listed are what the index presents. -/
theorem presents (hi : Intact r s h listed known) : s.Presents r listed :=
  ⟨hi.format, hi.lists, fun a ha =>
    ⟨hi.annals.sound a (hi.listedIn a ha), hi.stored a (hi.listedIn a ha) (.inl ha)⟩⟩

/-- What keeps formats, components and records, and adds no component file, keeps all intact. -/
theorem frame (hi : Intact r s h listed known) (hformat : t.format = s.format)
    (hroster : t.board.roster = s.board.roster) (hmemory : t.memory = s.memory)
    (hserial : s.nextSerial ≤ t.nextSerial) (hstamp : s.nextStamp ≤ t.nextStamp) (hroom : t.Roomy)
    (horderly : (t.desk (listed.map Record.component) known).Orderly t.parties)
    (hsorted : t.files.Sorted)
    (hfewer : ∀ name file, FileName.isComponent name = true → t.files.find? name = some file →
      s.files.find? name = some file)
    (hstored : ∀ a ∈ h.annals, a ∈ listed ∨ s.Pends a.component → a.LiesIn t.files)
    (hpends : ∀ c, t.Pends c ↔ s.Pends c)
    (hjobs : ∀ job ∈ t.pool.jobs, job.Sound r h.annals ∧ job.Fresh h.annals)
    (htasks : ∀ task ∈ t.clients, task.Sound r)
    (hretired : ∀ c ∈ t.retired, c ∈ known ∧ c ∉ listed.map Record.component) :
    Intact r t h listed known where
  format := by rw [hformat, hi.format]
  keyFields := hi.keyFields
  annals := hi.annals
  lists := by
    rw [hroster]
    exact hi.lists
  orderly := horderly
  serials := hroom.serials
  stamps := hroom.stamps
  low a ha := by
    have := hi.low a ha
    omega
  listedIn := hi.listedIn
  knownIn := hi.knownIn
  sorted := hsorted
  written name file hname hfile := hi.written name file hname (hfewer name file hname hfile)
  stored a ha hplace := hstored a ha (hplace.imp id (hpends _).1)
  line a ha := by
    obtain ⟨top, htop, hplace, hline⟩ := hi.line a ha
    exact ⟨top, htop, hplace.imp id (hpends _).2, hline⟩
  newer := hi.newer
  durable := hi.durable
  memory := by rw [hmemory, hi.memory]
  pending := hi.pending
  jobs := hjobs
  tasks := htasks
  retired := hretired

/-- A tuple is put into memory. -/
theorem remember (hi : Intact r s h listed known) {key : Bytes} {tuple : Tuple}
    (htask : Task.Sound r (.insert key tuple)) :
    Intact r { s with memory := s.memory.insert key tuple }
      { h with pending := h.pending ++ [tuple] } listed known := by
  have hmemory : Keyed.insert s.memory.tuples key tuple =
      Keyed.insertAll [] (Tuple.keyed r.keyFields (h.pending ++ [tuple])) := by
    rw [hi.memory, htask.1, Tuple.keyed_append, Keyed.insertAll, Keyed.insertAll, List.foldl_append]
    rfl
  refine { hi with memory := hmemory, pending := fun t ht => ?_ }
  rcases List.mem_append.1 ht with ht | ht
  · exact hi.pending t ht
  · rw [List.mem_singleton.1 ht]
    exact htask.2

/-- What waits in memory can be written to a file. -/
theorem admits_memory (hi : Intact r s h listed known) (hmemory : s.memory.isEmpty = false) :
    r.Admits (Keyed.values s.memory.tuples) ∧
      ∀ key, r.find? (Keyed.values s.memory.tuples) key =
        Keyed.find? (Tuple.keyed r.keyFields h.pending).reverse key := by
  have hlabels : r.Labels s.memory.tuples := by
    rw [hi.memory]
    exact Reading.labels_insertAll Reading.labels_nil (Reading.labels_keyed _)
  have hkeyed := Reading.keyed_values hlabels
  have hmem : ∀ t ∈ Keyed.values s.memory.tuples, r.Takes t := by
    intro t ht
    obtain ⟨e, he, rfl⟩ := List.mem_map.1 ht
    rw [hi.memory] at he
    rcases Reading.mem_insertAll he with hin | hnil
    · exact hi.pending _ (Tuple.mem_keyed_iff.1 (show (e.1, e.2) ∈ _ from hin)).1
    · simp at hnil
  have hascending : Keyed.Ascending s.memory.tuples := by
    rw [hi.memory]
    exact Keyed.ascending_insertAll List.Pairwise.nil _
  refine ⟨⟨?_, fun t ht => (hmem t ht).kept, ?_, fun t ht => (hmem t ht).key⟩, fun key => ?_⟩
  · have hne : Keyed.values s.memory.tuples ≠ [] := by
      intro hnil
      rw [Keyed.values, List.map_eq_nil_iff] at hnil
      simp [Memory.isEmpty, hnil] at hmemory
    obtain ⟨t, ht⟩ := List.exists_mem_of_ne_nil _ hne
    exact (hmem t ht).kinds
  · rw [← Tuple.ascending_keyed_iff, hkeyed]
    exact hascending
  · rw [Reading.find?, hkeyed, hi.memory, Keyed.find?_insertAll]
    exact Option.or_none

/-- The component files there are once a new one is in place: a record of it joins the annals. -/
theorem built (hi : Intact r s h listed known) {a : Record} {files : Directory}
    (hfiles : files = (s.files.erase (FileName.draft a.name)).write a.name a.file)
    (hnew : ∀ b ∈ h.annals, b.component.serial ≠ a.component.serial)
    (hword : a.component.serial < Numeral.word) :
    files.Sorted ∧
      (∀ name file, FileName.isComponent name = true → files.find? name = some file →
        ∃ b ∈ a :: h.annals, b.name = name ∧ b.file = file) ∧
      files.find? a.name = some a.file ∧
      ∀ b ∈ h.annals, b.LiesIn s.files → files.find? b.name = some b.file := by
  subst hfiles
  refine ⟨Directory.sorted_write (Directory.sorted_erase hi.sorted _) _ _, ?_, ?_, ?_⟩
  · intro name file hname hfile
    rw [Directory.find?_built s.files a.file hname] at hfile
    split at hfile
    · rename_i heq
      exact ⟨a, List.mem_cons_self, heq.symm, Option.some.inj hfile⟩
    · obtain ⟨b, hb, hrest⟩ := hi.written name file hname hfile
      exact ⟨b, List.mem_cons_of_mem _ hb, hrest⟩
  · rw [Directory.find?_write, if_pos rfl]
  · intro b hb hlies
    have hname : FileName.isComponent b.name = true := FileName.isComponent_ofComponent ..
    rw [Directory.find?_built s.files a.file hname, if_neg]
    · exact hlies
    · intro heq
      have hlow := (hi.low b hb).1
      exact hnew b hb (Record.serial_eq_of_name_eq (Nat.lt_trans hlow hi.serials) hword heq)

/-- A flush that succeeds turns what was pending durable. -/
theorem flushed (hi : Intact r s h listed known) {c : Component}
    (hflush : s.flushMemory = (t, .ok (some c))) (hroom : t.Roomy) :
    Intact r t
      { durable := h.durable ++ h.pending
        annals := .ofFiles t.files c (Keyed.values s.memory.tuples) [] :: h.annals }
      (.ofFiles t.files c (Keyed.values s.memory.tuples) [] :: listed) (c :: known) := by
  obtain ⟨hlists, horderly⟩ := orderly_flush hi.lists hi.orderly hi.serials hflush
  obtain ⟨hmemory, files, hbuild, rfl⟩ := flushMemory_eq_ok_iff.1 hflush
  obtain ⟨hadmits, hnewest⟩ := hi.admits_memory hmemory
  rw [← hi.format] at hadmits
  obtain ⟨hserial, hrange, file, hfile, hfiles⟩ := Directory.build_eq_ok hbuild hadmits
    (Nat.le_refl _) (Numeral.wrapped_lt _) (hroom.size_lt hbuild)
  rw [hi.format] at hadmits hfile
  rw [Numeral.wrapped_of_lt hi.stamps] at hrange
  rw [Record.ofFiles_built hfiles]
  have hnew : ∀ b ∈ h.annals, b.component.serial ≠ c.serial := fun b hb => by
    have := (hi.low b hb).1
    omega
  obtain ⟨hsorted, hwritten, hself, hothers⟩ := hi.built
    (a := ⟨c, file, Keyed.values s.memory.tuples, []⟩) hfiles hnew (hserial ▸ hi.serials)
  have hmore : ∀ b ∈ h.annals,
      b ∈ Record.mk c file (Keyed.values s.memory.tuples) [] :: h.annals :=
    fun b hb => List.mem_cons_of_mem _ hb
  exact {
    format := hi.format
    keyFields := hi.keyFields
    annals := hi.annals.cons ⟨hfile, hadmits⟩ hnew (by simp)
    lists := hlists
    orderly := horderly
    serials := hroom.serials
    stamps := hroom.stamps
    low := by
      rw [List.forall_mem_cons]
      refine ⟨?_, fun b hb => ?_⟩
      · rw [hserial, hrange]
        exact ⟨Nat.lt_succ_self _, Nat.lt_succ_self _⟩
      · have := hi.low b hb
        dsimp only
        omega
    listedIn := by
      rw [List.forall_mem_cons]
      exact ⟨List.mem_cons_self, fun b hb => hmore b (hi.listedIn b hb)⟩
    knownIn := by
      rw [List.forall_mem_cons]
      refine ⟨⟨_, List.mem_cons_self, rfl⟩, fun c hc => ?_⟩
      obtain ⟨b, hb, heq⟩ := hi.knownIn c hc
      exact ⟨b, hmore b hb, heq⟩
    sorted := hsorted
    written := hwritten
    stored := by
      rw [List.forall_mem_cons]
      refine ⟨fun _ => hself, fun b hb hplace => hothers b hb (hi.stored b hb ?_)⟩
      refine hplace.imp (fun hmem => (List.mem_cons.1 hmem).resolve_left ?_) id
      rintro rfl
      exact hnew _ hb rfl
    line := by
      rw [List.forall_mem_cons]
      refine ⟨⟨_, List.mem_cons_self, .inl List.mem_cons_self, .refl⟩, fun b hb => ?_⟩
      obtain ⟨top, htop, hplace, hline⟩ := hi.line b hb
      exact ⟨top, hmore top htop, hplace.imp (List.mem_cons_of_mem _) id,
        Record.line_mono hmore hline⟩
    newer := by
      refine List.pairwise_cons.2 ⟨fun b hb => ?_, hi.newer⟩
      show b.component.range.max < c.range.min
      rw [hrange]
      exact (hi.low b (hi.listedIn b hb)).2
    durable := fun key => by
      rw [Reading.newest_cons, hnewest, hi.durable, Tuple.keyed_append, List.reverse_append,
        Keyed.find?_append]
    memory := rfl
    pending := by simp
    jobs := fun job hjob => by
      refine ⟨(hi.jobs job hjob).1.mono hmore, fun serial tuples hphase => ?_⟩
      rw [List.forall_mem_cons]
      refine ⟨?_, (hi.jobs job hjob).2 serial tuples hphase⟩
      have := taken hi.orderly hjob hphase
      dsimp only
      omega
    tasks := hi.tasks
    retired := fun other hother => by
      obtain ⟨hknown, hout⟩ := hi.retired other hother
      refine ⟨List.mem_cons_of_mem _ hknown, fun hmem => ?_⟩
      rcases List.mem_cons.1 hmem with rfl | hmem
      · obtain ⟨b, hb, heq⟩ := hi.knownIn _ hknown
        exact hnew b hb (congrArg Component.serial heq)
      · exact hout hmem }

/-- Counts may be used up, and files may change that are no component's. -/
theorem refiled (hi : Intact r s h listed known) {files : Directory} {stamp serial : Nat}
    (hsorted : files.Sorted)
    (hsame : ∀ name, FileName.isComponent name = true → files.find? name = s.files.find? name)
    (hstamp : s.nextStamp ≤ stamp) (hserial : s.nextSerial ≤ serial)
    (hroom : Roomy { s with files, nextStamp := stamp, nextSerial := serial }) :
    Intact r { s with files, nextStamp := stamp, nextSerial := serial } h listed known := by
  refine hi.frame rfl rfl rfl hserial hstamp hroom (Desk.orderly_raise hi.orderly hserial) hsorted
    (fun name file hname hfile => ?_) (fun a ha hplace => ?_) (fun _ => Iff.rfl) hi.jobs hi.tasks
    hi.retired
  · rwa [← hsame name hname]
  · exact (hsame a.name (FileName.isComponent_ofComponent ..)).trans (hi.stored a ha hplace)

/-- A flush that writes nothing, or fails, loses nothing. -/
theorem unflushed (hi : Intact r s h listed known) {answer : Outcome (Option Component)}
    (hflush : s.flushMemory = (t, answer)) (hnone : ∀ c, answer ≠ .ok (some c)) (hroom : t.Roomy) :
    Intact r t h listed known := by
  rcases flushMemory_cases hflush hnone with rfl | ⟨name, file, rfl⟩
  · exact hi
  · exact hi.refiled (Directory.sorted_write hi.sorted _ _)
      (fun _ => Directory.find?_write_draft s.files name file) (Nat.le_succ _) (Nat.le_succ _) hroom

/-- Where memory is empty nothing waits in it. -/
theorem flushed_of_isEmpty (hi : Intact r s h listed known) (hempty : s.memory.isEmpty = true) :
    h.flushed = h := by
  have hnone : Tuple.keyed r.keyFields h.pending = [] := by
    rw [← Keyed.insertAll_eq_nil_iff, ← hi.memory]
    exact List.isEmpty_iff.1 hempty
  have hpending : h.pending = [] := List.map_eq_nil_iff.1 hnone
  rw [History.flushed, hpending, List.append_nil, ← hpending]

/-- A client goes on to what has as little of components. -/
theorem setClient (hi : Intact r s h listed known) {i : Nat} {task task' : Task}
    (htask : s.clients[i]? = some task) (hparty : task'.party = task.party)
    (hsound : task'.Sound r) :
    Intact r { s with clients := s.clients.set i task' } h listed known := by
  obtain ⟨rest, hperm, hnext⟩ := orderly_client htask
  have horderly := hnext (t := s) rfl (.inl ⟨rfl, hparty ▸ hi.orderly.perm hperm⟩)
  exact { hi with
    orderly := horderly
    tasks := fun other hother => (List.mem_or_eq_of_mem_set hother).elim (hi.tasks other)
      fun heq => heq ▸ hsound }

/-- A client takes a step that touches neither files nor tuples nor the list of components. -/
theorem calmClient (hi : Intact r s h listed known) {i : Nat} {task task' : Task}
    (htask : s.clients[i]? = some task) (hstep : s.stepTask task = some (t, task'))
    (hinsert : ∀ key tuple, task ≠ .insert key tuple) (hflush : task ≠ .flush)
    (hroom : Roomy { t with clients := t.clients.set i task' }) :
    Intact r { t with clients := t.clients.set i task' } h listed known := by
  obtain ⟨hunmoved, hsound⟩ := unmoved_stepTask hstep hinsert hflush
  obtain ⟨rest, hperm, hnext⟩ := orderly_client htask
  have hafter := orderly_stepTask hi.lists (hi.orderly.perm hperm) hflush hstep
  have hsubmits : s.Submits { t with clients := t.clients.set i task' } := hafter.submits
  refine hi.frame hunmoved.format hunmoved.roster hunmoved.memory
    (Nat.le_of_eq hunmoved.serial.symm)
    (Nat.le_of_eq hunmoved.stamp.symm) hroom (hnext hunmoved.clients hafter) ?_ ?_ ?_
    (pends_of_submits hsubmits)
    (forall_jobs_submits hsubmits (fun _ => sound_of_read) hi.jobs) ?_ ?_
  · exact hunmoved.files ▸ hi.sorted
  · intro name file _ hfile
    rwa [← hunmoved.files]
  · intro a ha hplace
    show t.files.find? a.name = some a.file
    rw [hunmoved.files]
    exact hi.stored a ha hplace
  · intro other hother
    rcases List.mem_or_eq_of_mem_set hother with hmem | rfl
    · rw [hunmoved.clients] at hmem
      exact hi.tasks other hmem
    · exact hsound r
  · intro c hc
    refine hi.retired c ?_
    rw [← hunmoved.retired]
    exact hc

/-- A client flushes. -/
theorem flushClient (hi : Intact r s h listed known) {i : Nat} {task' : Task}
    (htask : s.clients[i]? = some .flush) (hstep : s.stepTask .flush = some (t, task'))
    (hroom : t.Roomy) :
    ∃ listed' known', Intact r { t with clients := t.clients.set i task' }
      (h.called s { t with clients := t.clients.set i task' } .flush task') listed' known' := by
  rcases flush_stepTask hstep with ⟨answer, hflush, hnone, rfl⟩ | ⟨c, hflush, rfl⟩
  · have hhistory : ∀ u, h.called s u .flush (.returned (answer.map fun _ => ())) = h := by
      intro u
      match answer with
      | .error f => rfl
      | .ok none => exact hi.flushed_of_isEmpty (isEmpty_of_flushMemory hflush)
      | .ok (some c) => exact absurd rfl (hnone c)
    rw [hhistory]
    rw [← clients_flushMemory hflush] at htask
    exact ⟨listed, known, (hi.unflushed hflush hnone hroom).setClient htask rfl trivial⟩
  · rw [← clients_flushMemory hflush] at htask
    exact ⟨_, _, (hi.flushed hflush hroom).setClient htask rfl trivial⟩

/-- All stays intact when a client takes a step. -/
theorem client (hi : Intact r s h listed known) {i : Nat} (hstep : s.client i = some t)
    (hroom : t.Roomy) :
    ∃ listed' known', Intact r t (h.after s t (.action (.client i))) listed' known' := by
  obtain ⟨task, s', task', htask, hrun, rfl⟩ := client_eq_some_iff.1 hstep
  obtain ⟨new, hcalls⟩ := calls_of_stepTask hrun
  have hclients : s'.clients = s.clients := (submitted_calls hcalls).1
  have hi' := (List.getElem?_eq_some_iff.1 htask).1
  rw [h.after_of_call _ (@callStep?_eq s _ (.action (.client i)) _ _ _ hstep rfl htask
    (List.getElem?_set_self (hclients ▸ hi')))]
  rcases task.inserts_or_flushes_or_neither with ⟨key, tuple, rfl⟩ | rfl | ⟨hinsert, hflush⟩
  · obtain ⟨rfl, rfl⟩ := Prod.mk.inj (Option.some.inj hrun)
    have hsound := hi.tasks _ (List.mem_of_getElem? htask)
    refine ⟨listed, known, (hi.remember hsound).setClient htask ?_ ?_⟩
    · split <;> rfl
    · split <;> trivial
  · exact hi.flushClient htask hrun ⟨hroom.stamps, hroom.serials, hroom.files⟩
  · rw [h.called_of_other s _ hinsert hflush]
    exact ⟨listed, known, hi.calmClient htask hrun hinsert hflush hroom⟩

/-- All stays intact when the flush of a client fails as it writes. -/
theorem failFlush (hi : Intact r s h listed known) {i : Nat} {f : Failure}
    (hfail : s.failFlush i f = some t) (hroom : t.Roomy) :
    ∃ listed' known', Intact r t (h.after s t (.failFlush i f)) listed' known' := by
  have hturn : s.turn (.failFlush i f) = some t := hfail
  obtain ⟨htask, -, rfl⟩ := failFlush_eq_some_iff.1 hfail
  have hi' := (List.getElem?_eq_some_iff.1 htask).1
  rw [h.after_of_call _ (callStep?_eq hturn rfl htask (List.getElem?_set_self hi'))]
  have hspent := hi.refiled hi.sorted (fun _ _ => rfl) (Nat.le_succ _) (Nat.le_succ _)
    ⟨hroom.stamps, hroom.serials, hroom.files⟩
  exact ⟨listed, known, hspent.setClient htask rfl trivial⟩

/-- The pool may pass its jobs on. -/
theorem passOn (hi : Intact r s h listed known) {pool : Pool Job}
    (hjobs : pool.jobs.Perm s.pool.jobs) : Intact r { s with pool } h listed known := by
  have hparties : s.parties.Perm (parties { s with pool }) :=
    (hjobs.symm.map Job.party).append_left _
  have hpends : ∀ c, Pends { s with pool } c ↔ s.Pends c := fun c => by
    simp only [Pends, hjobs.mem_iff]
  exact { hi with
    orderly := hi.orderly.perm hparties
    stored := fun a ha hplace => hi.stored a ha (hplace.imp id (hpends _).1)
    line := fun a ha => by
      obtain ⟨top, htop, hplace, hline⟩ := hi.line a ha
      exact ⟨top, htop, hplace.imp id (hpends _).2, hline⟩
    jobs := fun job hjob => hi.jobs job (hjobs.mem_iff.1 hjob) }

/-- A client begins a call. -/
theorem call (hi : Intact r s h listed known) {task : Task}
    (hpermits : s.Permits (.action (.call task))) :
    Intact r { s with clients := s.clients ++ [task] } h listed known := by
  have hbegins : task.Begins := hpermits.proper
  have haccepted := hpermits.accepts
  have hempty : task.party = {} := by
    cases hbegins <;> rfl
  have hparties : ({} :: s.parties).Perm (parties { s with clients := s.clients ++ [task] }) := by
    rw [parties, parties, List.map_append, List.map_singleton, hempty, List.append_assoc]
    exact List.perm_middle.symm
  have hsound : task.Sound r := by
    cases hbegins with
    | insert key tuple =>
      obtain ⟨haccept, hlength, hkey⟩ := haccepted key tuple rfl
      simp only [accept, Outcome.bind_eq_ok_iff, Outcome.liftM_eq, Outcome.ofExcept_eq_ok_iff]
        at haccept
      obtain ⟨key', hkeyOf, needed, -, n, hwrite, heq⟩ := haccept
      obtain rfl := Except.ok.inj heq
      rw [keyOf] at hkeyOf
      split at hkeyOf
      · contradiction
      · rename_i hfields
        obtain rfl := Except.ok.inj hkeyOf
        have hpositive := hi.keyFields
        rw [← hi.format] at hpositive ⊢
        have hkinds : 0 < s.format.codec.kinds.length := by
          have hle : s.format.reading.keyFields ≤ tuple.length := Nat.le_of_not_lt hfields
          omega
        exact ⟨rfl, hkinds, Codec.keeps_of_write hlength hwrite, hkey⟩
    | flush => trivial
    | request => trivial
    | drain => trivial
  exact { hi with
    orderly := (Desk.orderly_cons_empty.2 hi.orderly).perm hparties
    tasks := fun other hother => (List.mem_append.1 hother).elim (hi.tasks other)
      fun hmem => List.mem_singleton.1 hmem ▸ hsound }

/-- The file of a component merged away is removed. -/
theorem reap (hi : Intact r s h listed known) {serial : Nat} (hstep : s.reap serial = some t)
    (hroom : t.Roomy) : Intact r t h listed known := by
  obtain ⟨c, hfind, hrest⟩ := Option.bind_eq_some_iff.1 hstep
  obtain ⟨name, hname, heq⟩ := Option.bind_eq_some_iff.1 hrest
  obtain rfl := Option.some.inj heq
  obtain ⟨hknown, hout⟩ := hi.retired c (List.mem_of_find?_eq_some hfind)
  obtain ⟨gone, hgone, rfl⟩ := hi.knownIn c hknown
  have hfile := (hi.annals.sound gone hgone).file.name
  rw [hfile] at hname
  obtain rfl : gone.name = name := Option.some.inj hname
  refine hi.frame rfl rfl rfl (Nat.le_refl _) (Nat.le_refl _) hroom hi.orderly
    (Directory.sorted_erase hi.sorted _) ?_ ?_ (fun _ => Iff.rfl) hi.jobs hi.tasks ?_
  · intro other file _ hfind
    rw [Directory.find?_erase] at hfind
    split at hfind
    · contradiction
    · exact hfind
  · intro a ha hplace
    show (s.files.erase gone.name).find? a.name = some a.file
    rw [Directory.find?_erase, if_neg]
    · exact hi.stored a ha hplace
    · intro hsame
      have hserial := Record.serial_eq_of_name_eq
        (Nat.lt_trans (hi.low a ha).1 hi.serials)
        (Nat.lt_trans (hi.low gone hgone).1 hi.serials) hsame
      obtain rfl := hi.annals.eq_of_serial_eq ha hgone hserial
      rcases hplace with hin | ⟨job, hjob, hphase⟩
      · exact hout (List.mem_map_of_mem hin)
      · refine ((hi.orderly.admits _ (mem_parties hjob)).making a.component.serial ?_).2 _
          hknown rfl
        rw [Job.party, hphase]
        exact List.mem_singleton_self _
  · intro c hc
    exact hi.retired c (List.mem_filter.1 hc).1

/-- A stretch of the components listed is one of the records listed. -/
theorem exists_stretch (hi : Intact r s h listed known) {newer members older : List Component}
    (hlisted : listed.map Record.component = newer ++ members ++ older) :
    ∃ front parts back, listed = front ++ parts ++ back ∧ front.map Record.component = newer ∧
      parts.map Record.component = members ∧ back.map Record.component = older ∧
      (∀ p ∈ parts, p ∈ h.annals ∧ p.Sound r ∧ p.LiesIn s.files) ∧ parts.Pairwise Record.Newer := by
  obtain ⟨left, back, rfl, hleft, hback⟩ := List.map_eq_append_iff.1 hlisted
  obtain ⟨front, parts, rfl, hfront, hparts⟩ := List.map_eq_append_iff.1 hleft
  refine ⟨front, parts, back, rfl, hfront, hparts, hback, fun p hp => ?_, ?_⟩
  · have hp' : p ∈ front ++ parts ++ back := by simp [hp]
    have hmem := hi.listedIn p hp'
    exact ⟨hmem, hi.annals.sound p hmem, hi.stored p hmem (.inl hp')⟩
  · exact (List.pairwise_append.1 (List.pairwise_append.1 hi.newer).1).2.1

end Intact

end Store

end Strata
