import Strata.Proofs.Store.Charts
import Strata.Proofs.Store.Merges
import Strata.Proofs.Store.Turns

/-!
# Components by range

The components listed come by range, the newest first, and stay so in every turn, even where merges
and flushes fail and files get lost. A chart has the ranges of all component files that have been
seen. It tells which counts are taken; and each range on it lies inside that of a listed component
or of a result that waits, so what is written next covers it or lies apart from it.
-/

namespace Strata

namespace Component

variable {newer members older ms listed : List Component} {range other : Range}

/-- The span of components that stand together covers them, and lies apart from all others. -/
theorem contains_or_apart_of_span (h : (newer ++ members ++ older).Pairwise Newer)
    (hspan : Range.span (members.map Component.range) = some range) :
    ∀ c ∈ newer ++ members ++ older, range.contains c.range = true ∨ range.Apart c.range := by
  obtain ⟨-, hcovers, hmin, hmax⟩ := Range.span_spec hspan
  obtain ⟨hleft, -, hacross⟩ := List.pairwise_append.1 h
  have hbetween := (List.pairwise_append.1 hleft).2.2
  intro c hc
  rcases List.mem_append.1 hc with hc | hc
  · rcases List.mem_append.1 hc with hc | hc
    · exact .inr (.inl (hmax _ (List.forall_mem_map.2 fun m hm => hbetween c hc m hm)))
    · exact .inl (hcovers _ (List.mem_map_of_mem hc))
  · refine .inr (.inr (hmin _ (List.forall_mem_map.2 fun m hm => ?_)))
    exact hacross m (List.mem_append_right _ hm) c hc

/-- The spans of two stretches lie apart if they have no member in common. -/
theorem apart_of_span (h : listed.Pairwise Newer) (hmembers : members <:+: listed)
    (hms : ms <:+: listed) (hapart : ∀ m ∈ members, m ∉ ms)
    (hspan : Range.span (members.map Component.range) = some range)
    (hspan' : Range.span (ms.map Component.range) = some other) : range.Apart other := by
  obtain ⟨newer, older, rfl⟩ := hmembers
  obtain ⟨hne, -, hmin, hmax⟩ := Range.span_spec hspan
  obtain ⟨-, -, hmin', hmax'⟩ := Range.span_spec hspan'
  obtain ⟨hleft, -, hacross⟩ := List.pairwise_append.1 h
  have hbetween := (List.pairwise_append.1 hleft).2.2
  rcases infix_beside hms hapart (.inl fun hnil => hne (by rw [hnil, List.map_nil])) with
    hnewer | holder
  · refine .inl (hmin' _ (List.forall_mem_map.2 fun c hc => ?_))
    exact hmax _ (List.forall_mem_map.2 fun m hm => hbetween c (hnewer.subset hc) m hm)
  · refine .inr (hmax' _ (List.forall_mem_map.2 fun c hc => ?_))
    exact hmin _ (List.forall_mem_map.2 fun m hm =>
      hacross m (List.mem_append_right _ hm) c (holder.subset hc))

end Component

/-- A file is in a directory. -/
def Directory.Has (d : Directory) (name : String) (file : Bytes) : Prop := d.find? name = some file

/-- What has been seen, with the files of a directory. -/
def Directory.SeenWith (d : Directory) (seen : String → Bytes → Prop) (name : String)
    (file : Bytes) : Prop :=
  seen name file ∨ d.Has name file

/-- All component files of a directory have been seen. -/
def Directory.Within (d : Directory) (seen : String → Bytes → Prop) : Prop :=
  ∀ name file, FileName.isComponent name = true → d.Has name file → seen name file

/-- A merge about to write its result has a count that is not on the chart, and one about to put it
in place has made it of all its members. -/
structure Job.Due (chart : Chart) (job : Job) : Prop where
  fresh : ∀ serial tuples, job.phase = .build serial tuples → chart serial = none
  spans : ∀ c, job.phase = .swap c → job.range? = some c.range

theorem Job.due_of_plain {chart : Chart} {job : Job} (h : job.Plain) : job.Due chart := by
  obtain ⟨members, phase⟩ := job
  cases phase with
  | number tuples => exact h.elim
  | build serial tuples => exact h.elim
  | swap result => exact h.elim
  | _ => exact ⟨fun _ _ heq => (nomatch heq), fun _ heq => (nomatch heq)⟩

theorem Job.plain_of_read {job : Job} (h : job.phase = .read) : job.Plain := by
  rw [Job.Plain, h]
  trivial

namespace Store

/-- Counts and stamps have not run out. -/
structure Lasts (s : Store) : Prop where
  serials : s.nextSerial < Numeral.word
  stamps : s.nextStamp < Numeral.word

/-- An index whose components come by range, with a chart of the component files seen. -/
structure Ranked (s : Store) (seen : String → Bytes → Prop) (chart : Chart)
    (listed known : List Component) : Prop where
  lists : s.board.roster.Lists listed
  orderly : (s.desk listed known).Orderly s.parties
  lasts : s.Lasts
  newer : listed.Pairwise Component.Newer
  bounds : ∀ c ∈ listed, c.range.min ≤ c.range.max ∧ c.range.max < s.nextStamp
  covers : chart.Covers seen
  low : ∀ n range, chart n = some range → n < s.nextSerial ∧ range.max < s.nextStamp
  home : ∀ n range, chart n = some range →
    ∃ c, (c ∈ listed ∨ s.Pends c) ∧ c.range.contains range = true
  files : s.files.Within seen
  jobs : ∀ job ∈ s.pool.jobs, job.Due chart

variable {s t : Store} {seen : String → Bytes → Prop} {chart : Chart}
  {listed known : List Component}

namespace Ranked

/-- What lists nothing and adds no component file keeps components by range. -/
theorem frame (hr : Ranked s seen chart listed known) (hroster : t.board.roster = s.board.roster)
    (hserial : s.nextSerial ≤ t.nextSerial) (hstamp : s.nextStamp ≤ t.nextStamp) (hlasts : t.Lasts)
    (horderly : (t.desk listed known).Orderly t.parties) (hfiles : t.files.Within seen)
    (hpends : ∀ c, s.Pends c → t.Pends c) (hjobs : ∀ job ∈ t.pool.jobs, job.Due chart) :
    Ranked t seen chart listed known where
  lists := by
    rw [hroster]
    exact hr.lists
  orderly := horderly
  lasts := hlasts
  newer := hr.newer
  bounds c hc := by
    have := hr.bounds c hc
    omega
  covers := hr.covers
  low n range hn := by
    have := hr.low n range hn
    omega
  home n range hn := by
    obtain ⟨c, hplace, hcontains⟩ := hr.home n range hn
    exact ⟨c, hplace.imp id (hpends c), hcontains⟩
  files := hfiles
  jobs := hjobs

/-- All files that are there have been seen. -/
theorem seenWith (hr : Ranked s seen chart listed known) :
    Ranked s (s.files.SeenWith seen) chart listed known :=
  { hr with
    covers := hr.covers.mono fun name file hname hseen =>
      hseen.elim id (hr.files name file hname)
    files := fun _ _ _ => .inr }

/-- A count on the chart is a word. -/
theorem word (hr : Ranked s seen chart listed known) {n : Nat} {range : Range}
    (hn : chart n = some range) : n < Numeral.word :=
  Nat.lt_trans (hr.low n range hn).1 hr.lasts.serials

theorem next_fresh (hr : Ranked s seen chart listed known) : chart s.nextSerial = none := by
  cases hn : chart s.nextSerial with
  | none => rfl
  | some range => exact absurd (hr.low _ range hn).1 (Nat.lt_irrefl _)

/-- There is no file of a component whose count is not on the chart. -/
theorem find?_eq_none (hr : Ranked s seen chart listed known) {serial : Nat}
    (hnew : chart serial = none) (hserial : serial < Numeral.word) (range : Range) :
    s.files.find? (FileName.ofComponent (Numeral.wrapped serial) range) = none := by
  cases hfile : s.files.find? (FileName.ofComponent (Numeral.wrapped serial) range) with
  | none => rfl
  | some file =>
    have hcomponent := FileName.isComponent_ofComponent (Numeral.wrapped serial) range
    obtain ⟨n, other, hn, hname, -⟩ :=
      hr.covers.named _ file hcomponent (hr.files _ file hcomponent hfile)
    have hwrapped := (FileName.ofComponent_eq_iff.1 hname).1
    rw [Numeral.wrapped_of_lt hserial, Numeral.wrapped_of_lt (hr.word hn)] at hwrapped
    rw [hwrapped, hn] at hnew
    contradiction

/-- Once a new file is in place, no other component file is there that has not been seen. -/
theorem sub_built (hr : Ranked s seen chart listed known) {d : Directory} {name : String}
    {file : Bytes} (hd : d = (s.files.erase (FileName.draft name)).write name file) :
    ∀ other bytes, FileName.isComponent other = true → d.SeenWith seen other bytes →
      seen other bytes ∨ other = name ∧ bytes = file := by
  subst hd
  rintro other bytes hother (hseen | hfile)
  · exact .inl hseen
  · rw [Directory.Has, Directory.find?_built s.files file hother] at hfile
    split at hfile
    · exact .inr ⟨‹_›, (Option.some.inj hfile).symm⟩
    · exact .inl (hr.files other bytes hother hfile)

/-- A file under construction is none that has to be seen. -/
theorem within_draft (hr : Ranked s seen chart listed known) (name : String) (file : Bytes) :
    (s.files.write (FileName.draft name) file).Within seen := by
  intro other bytes hother hfile
  rw [Directory.Has, Directory.find?_write_draft s.files name file hother] at hfile
  exact hr.files other bytes hother hfile

/-- What memory holds has nothing to do with components. -/
theorem remember (hr : Ranked s seen chart listed known) (memory : Memory) :
    Ranked { s with memory } seen chart listed known :=
  hr.frame rfl (Nat.le_refl _) (Nat.le_refl _) ⟨hr.lasts.serials, hr.lasts.stamps⟩ hr.orderly
    hr.files (fun _ => id) hr.jobs

/-- A client goes on to what has as little of components. -/
theorem setClient (hr : Ranked s seen chart listed known) {i : Nat} {task task' : Task}
    (htask : s.clients[i]? = some task) (hparty : task'.party = task.party) :
    Ranked { s with clients := s.clients.set i task' } seen chart listed known := by
  obtain ⟨rest, hperm, hnext⟩ := orderly_client htask
  exact { hr with
    orderly := hnext (t := s) rfl (.inl ⟨rfl, hparty ▸ hr.orderly.perm hperm⟩)
    lasts := ⟨hr.lasts.serials, hr.lasts.stamps⟩ }

/-- A client takes a step that touches neither files nor tuples nor the list of components. -/
theorem calmClient (hr : Ranked s seen chart listed known) {i : Nat} {task task' : Task}
    (htask : s.clients[i]? = some task) (hstep : s.stepTask task = some (t, task'))
    (hinsert : ∀ key tuple, task ≠ .insert key tuple) (hflush : task ≠ .flush) (hlasts : t.Lasts) :
    Ranked { t with clients := t.clients.set i task' } seen chart listed known := by
  obtain ⟨hunmoved, -⟩ := unmoved_stepTask hstep hinsert hflush
  obtain ⟨rest, hperm, hnext⟩ := orderly_client htask
  have hafter := orderly_stepTask hr.lists (hr.orderly.perm hperm) hflush hstep
  have hsubmits : s.Submits { t with clients := t.clients.set i task' } := hafter.submits
  refine hr.frame hunmoved.roster (Nat.le_of_eq hunmoved.serial.symm)
    (Nat.le_of_eq hunmoved.stamp.symm) ⟨hlasts.serials, hlasts.stamps⟩
    (hnext hunmoved.clients hafter) ?_ (fun c => (pends_of_submits hsubmits c).2)
    (forall_jobs_submits hsubmits (fun j hj => Job.due_of_plain (Job.plain_of_read hj)) hr.jobs)
  show t.files.Within seen
  rw [hunmoved.files]
  exact hr.files

/-- A flush lists a component whose flush is newer than all others. -/
theorem flushed (hr : Ranked s seen chart listed known) {c : Component}
    (hflush : s.flushMemory = (t, .ok (some c))) (hlasts : t.Lasts) :
    Ranked t (t.files.SeenWith seen) (chart.add c.serial c.range) (c :: listed) (c :: known) := by
  obtain ⟨hlists, horderly⟩ := orderly_flush hr.lists hr.orderly hr.lasts.serials hflush
  obtain ⟨-, files, hbuild, rfl⟩ := flushMemory_eq_ok_iff.1 hflush
  have hserial := Directory.serial_build hbuild
  obtain ⟨hrange, file, htells, hfiles⟩ :=
    Directory.tells_build hbuild (Nat.le_refl _) (Numeral.wrapped_lt _)
  rw [Numeral.wrapped_of_lt hr.lasts.stamps] at hrange htells
  have hnew : chart c.serial = none := hserial ▸ hr.next_fresh
  have hnewest : ∀ other ∈ listed, c.Newer other := fun other hother => by
    rw [Component.Newer, hrange]
    exact (hr.bounds other hother).2
  exact {
    lists := hlists
    orderly := horderly
    lasts := hlasts
    newer := List.pairwise_cons.2 ⟨hnewest, hr.newer⟩
    bounds := by
      rw [List.forall_mem_cons, hrange]
      refine ⟨⟨Nat.le_refl _, Nat.lt_succ_self _⟩, fun other hother => ?_⟩
      have := hr.bounds other hother
      dsimp only
      omega
    covers := by
      refine (hr.covers.add hnew ?_ (fun n other hn => ?_) (hrange.symm ▸ htells)).mono
        (hr.sub_built hfiles)
      · rw [hrange]
        exact Nat.le_refl _
      · rw [hrange]
        exact .inr (.inr (.inr (hr.low n other hn).2))
    low := fun n other hn => by
      rcases Chart.add_eq_some_iff.1 hn with ⟨rfl, rfl⟩ | ⟨-, hn⟩
      · rw [hserial, hrange]
        exact ⟨Nat.lt_succ_self _, Nat.lt_succ_self _⟩
      · have := hr.low n other hn
        dsimp only
        omega
    home := fun n other hn => by
      rcases Chart.add_eq_some_iff.1 hn with ⟨rfl, rfl⟩ | ⟨-, hn⟩
      · exact ⟨c, .inl List.mem_cons_self, Range.contains_self _⟩
      · obtain ⟨b, hplace, hcontains⟩ := hr.home n other hn
        exact ⟨b, hplace.imp (List.mem_cons_of_mem _) id, hcontains⟩
    files := fun _ _ _ => .inr
    jobs := fun job hjob => by
      refine ⟨fun serial tuples hphase => ?_, (hr.jobs job hjob).spans⟩
      rw [Chart.add_of_ne]
      · exact (hr.jobs job hjob).fresh serial tuples hphase
      · have := taken hr.orderly hjob hphase
        omega }

/-- A flush that writes nothing, or fails, leaves the list as it is. -/
theorem unflushed (hr : Ranked s seen chart listed known) {answer : Outcome (Option Component)}
    (hflush : s.flushMemory = (t, answer)) (hnone : ∀ c, answer ≠ .ok (some c)) (hlasts : t.Lasts) :
    Ranked t seen chart listed known := by
  obtain ⟨-, horderly⟩ := orderly_flush_none hr.orderly hflush hnone
  rcases flushMemory_cases hflush hnone with rfl | ⟨name, file, rfl⟩
  · exact hr
  · exact hr.frame rfl (Nat.le_succ _) (Nat.le_succ _) hlasts horderly (hr.within_draft name file)
      (fun _ => id) hr.jobs

/-- A client flushes. -/
theorem flushClient (hr : Ranked s seen chart listed known) {i : Nat} {task' : Task}
    (htask : s.clients[i]? = some .flush) (hstep : s.stepTask .flush = some (t, task'))
    (hlasts : t.Lasts) :
    ∃ chart' listed' known', Ranked { t with clients := t.clients.set i task' }
      (t.files.SeenWith seen) chart' listed' known' := by
  rcases flush_stepTask hstep with ⟨answer, hflush, hnone, rfl⟩ | ⟨c, hflush, rfl⟩
  · rw [← clients_flushMemory hflush] at htask
    have hset : Ranked { t with clients := t.clients.set i (.returned (answer.map fun _ => ())) }
        seen chart listed known := (hr.unflushed hflush hnone hlasts).setClient htask rfl
    exact ⟨_, _, _, hset.seenWith⟩
  · rw [← clients_flushMemory hflush] at htask
    exact ⟨_, _, _, (hr.flushed hflush hlasts).setClient htask rfl⟩

/-- Components stay by range when a client takes a step. -/
theorem client (hr : Ranked s seen chart listed known) {i : Nat} (hstep : s.client i = some t)
    (hlasts : t.Lasts) :
    ∃ chart' listed' known', Ranked t (t.files.SeenWith seen) chart' listed' known' := by
  obtain ⟨task, s', task', htask, hrun, rfl⟩ := client_eq_some_iff.1 hstep
  have hlasts' : s'.Lasts := ⟨hlasts.serials, hlasts.stamps⟩
  rcases task.inserts_or_flushes_or_neither with ⟨key, tuple, rfl⟩ | rfl | ⟨hinsert, hflush⟩
  · obtain ⟨rfl, rfl⟩ := Prod.mk.inj (Option.some.inj hrun)
    refine ⟨_, _, _, ((hr.remember (s.memory.insert key tuple)).setClient htask ?_).seenWith⟩
    split <;> rfl
  · exact hr.flushClient htask hrun hlasts'
  · exact ⟨_, _, _, (hr.calmClient htask hrun hinsert hflush hlasts').seenWith⟩

/-- A client begins a call. -/
theorem call (hr : Ranked s seen chart listed known) {task : Task} (hbegins : task.Begins) :
    Ranked { s with clients := s.clients ++ [task] } seen chart listed known := by
  have hempty : task.party = {} := by
    cases hbegins <;> rfl
  have hparties : ({} :: s.parties).Perm (parties { s with clients := s.clients ++ [task] }) := by
    rw [parties, parties, List.map_append, List.map_singleton, hempty, List.append_assoc]
    exact List.perm_middle.symm
  exact hr.frame rfl (Nat.le_refl _) (Nat.le_refl _) ⟨hr.lasts.serials, hr.lasts.stamps⟩
    ((Desk.orderly_cons_empty.2 hr.orderly).perm hparties) hr.files (fun _ => id) hr.jobs

/-- The pool may pass its jobs on. -/
theorem passOn (hr : Ranked s seen chart listed known) {pool : Pool Job}
    (hjobs : pool.jobs.Perm s.pool.jobs) : Ranked { s with pool } seen chart listed known := by
  have hparties : s.parties.Perm (parties { s with pool }) :=
    (hjobs.symm.map Job.party).append_left _
  exact hr.frame rfl (Nat.le_refl _) (Nat.le_refl _) ⟨hr.lasts.serials, hr.lasts.stamps⟩
    (hr.orderly.perm hparties) hr.files
    (fun _ ⟨job, hjob, hphase⟩ => ⟨job, hjobs.mem_iff.2 hjob, hphase⟩)
    fun job hjob => hr.jobs job (hjobs.mem_iff.1 hjob)

/-- Files of a directory may change if component files only get lost, or come back. -/
theorem refile (hr : Ranked s seen chart listed known) {d : Directory} (hd : d.Within seen)
    {retired : List Component} : Ranked { s with files := d, retired } seen chart listed known :=
  hr.frame rfl (Nat.le_refl _) (Nat.le_refl _) ⟨hr.lasts.serials, hr.lasts.stamps⟩ hr.orderly hd
    (fun _ => id) hr.jobs

/-- The file of a component merged away is removed. -/
theorem reap (hr : Ranked s seen chart listed known) {serial : Nat}
    (hstep : s.reap serial = some t) : Ranked t seen chart listed known := by
  obtain ⟨c, -, hrest⟩ := Option.bind_eq_some_iff.1 hstep
  obtain ⟨name, -, heq⟩ := Option.bind_eq_some_iff.1 hrest
  obtain rfl := Option.some.inj heq
  refine hr.refile fun other file hother hfile => hr.files other file hother ?_
  rw [Directory.Has, Directory.find?_erase] at hfile
  split at hfile
  · contradiction
  · exact hfile

/-- A merge takes a step that neither lists anything nor comes to a result, or fails. -/
theorem workOn (hr : Ranked s seen chart listed known) {i : Nat} {job job' : Job}
    {others : List Job} (hjob : s.pool.jobOf? i = some job)
    (hothers : s.pool.jobs.Perm (job :: others)) (hswap : ∀ c, job.phase ≠ .swap c)
    (hafter : OrderlyAfter s t listed known job'.party
      (others.map Job.party ++ s.clients.map Task.party))
    (hroster : t.board.roster = s.board.roster) (hclients : t.clients = s.clients)
    (hserial : s.nextSerial ≤ t.nextSerial) (hstamp : s.nextStamp ≤ t.nextStamp) (hlasts : t.Lasts)
    (hfiles : t.files.Within seen) (hdue : job'.Due chart) :
    Ranked { t with pool := t.pool.setWorker i (workerOf job') } seen chart listed known := by
  refine hr.frame hroster hserial hstamp ⟨hlasts.serials, hlasts.stamps⟩
    (orderly_worker hjob hothers hclients hafter) hfiles (fun c hwaits => ?_) ?_
  · refine (pends_work hjob hothers hafter.submits job' c).2 (.inr ?_)
    exact ((pends_iff hothers c).1 hwaits).resolve_left (hswap c)
  · exact forall_jobs_work hjob hothers hafter.submits
      (fun j hj => Job.due_of_plain (Job.plain_of_read hj))
      (fun j hj => hr.jobs j (hothers.mem_iff.2 (List.mem_cons_of_mem _ hj))) hdue

/-- A merge takes a step that lists nothing and writes no component file. -/
theorem quietWork (hr : Ranked s seen chart listed known) {i : Nat} {job job' : Job}
    (hjob : s.pool.jobOf? i = some job) (hswap : ∀ c, job.phase ≠ .swap c)
    (hbuild : ∀ serial tuples c, job.phase = .build serial tuples → job'.phase ≠ .swap c)
    (hstep : s.stepJob job = some (t, job')) (hlasts : t.Lasts) :
    Ranked { t with pool := t.pool.setWorker i (workerOf job') } seen chart listed known := by
  obtain ⟨others, hothers⟩ := Pool.exists_jobs_perm hjob
  have horderly := hr.orderly.perm (parties_perm_worker hothers)
  obtain ⟨hquiet, -, hplain⟩ := quiet_stepJob hswap hbuild hstep
  refine hr.workOn hjob hothers hswap (orderly_stepJob hr.lists horderly hswap hstep) hquiet.roster
    hquiet.clients hquiet.serial (Nat.le_of_eq hquiet.stamp.symm) hlasts ?_ ?_
  · rcases hquiet.files with heq | ⟨name, file, heq⟩
    · rw [heq]
      exact hr.files
    · rw [heq]
      exact hr.within_draft name file
  · rcases hplain with hplain | hcarries
    · exact Job.due_of_plain hplain
    · cases hcarries with
      | read => exact ⟨fun _ _ heq => (nomatch heq), fun _ heq => (nomatch heq)⟩
      | number =>
        refine ⟨fun serial tuples heq => ?_, fun _ heq => (nomatch heq)⟩
        obtain ⟨rfl, -⟩ := Job.Phase.build.inj heq
        exact hr.next_fresh

/-- A merge fails as it reads or writes. -/
theorem failMerge (hr : Ranked s seen chart listed known) {i : Nat} {f : Failure}
    (hfail : s.failMerge i f = some t) : Ranked t seen chart listed known := by
  obtain ⟨job, hjob, hrest⟩ := Option.bind_eq_some_iff.1 hfail
  obtain ⟨others, hothers⟩ := Pool.exists_jobs_perm hjob
  have horderly := hr.orderly.perm (parties_perm_worker hothers)
  obtain ⟨members, phase⟩ := job
  have hwork : (∀ c, phase ≠ .swap c) →
      (Party.mk [] members [] []).Within (Job.party ⟨members, phase⟩) →
      Ranked { s with pool := s.pool.setWorker i (workerOf ⟨members, Job.phaseOf f⟩) } seen chart
        listed known := by
    intro hswap hwithin
    refine hr.workOn (t := s) hjob hothers hswap (.inl ⟨rfl, ?_⟩) rfl rfl (Nat.le_refl _)
      (Nat.le_refl _) hr.lasts hr.files (Job.due_of_plain ?_)
    · cases f with
      | error e => exact Desk.orderly_narrow horderly hwithin
      | breach => exact Desk.orderly_clear horderly
    · cases f <;> trivial
  cases phase with
  | read =>
    obtain rfl := Option.some.inj hrest
    exact hwork (fun _ heq => (nomatch heq))
      ⟨by simp, List.Sublist.refl _, List.Sublist.refl _, List.Sublist.refl _⟩
  | build serial tuples =>
    obtain rfl := Option.some.inj hrest
    exact hwork (fun _ heq => (nomatch heq))
      ⟨by simp, List.Sublist.refl _, List.Sublist.refl _, List.nil_sublist _⟩
  | _ => simp [Job.usesFiles] at hrest

/-- A flush fails as it writes. -/
theorem failFlush (hr : Ranked s seen chart listed known) {i : Nat} {f : Failure}
    (hfail : s.failFlush i f = some t) (hlasts : t.Lasts) : Ranked t seen chart listed known := by
  obtain ⟨htask, -, rfl⟩ := failFlush_eq_some_iff.1 hfail
  have hraised : Ranked
      { s with nextStamp := s.nextStamp + 1, nextSerial := s.nextSerial + 1 } seen chart listed
      known :=
    hr.frame rfl (Nat.le_succ _) (Nat.le_succ _) ⟨hlasts.serials, hlasts.stamps⟩
      (Desk.orderly_raise hr.orderly (Nat.le_succ _)) hr.files (fun _ => id) hr.jobs
  exact hraised.setClient htask rfl

/-- A merge holds all its members until its result is in place. -/
theorem infix_listed (hr : Ranked s seen chart listed known) {job : Job} (hjob : job ∈ s.pool.jobs)
    (htracked : job.members ∈ job.party.tracked) (hheld : job.party.held = job.members) :
    job.members <:+: listed :=
  (hr.orderly.admits _ (mem_parties hjob)).infix_listed htracked fun _ hc => hheld.symm ▸ hc

/-- What a merge is about to write covers other files, or lies apart from them. -/
theorem nests_of_build (hr : Ranked s seen chart listed known) {members : List Component}
    {serial : Nat} {tuples : List Tuple} {others : List Job}
    (hothers : s.pool.jobs.Perm (⟨members, .build serial tuples⟩ :: others)) {range : Range}
    (hspan : Range.span (members.map Component.range) = some range) :
    ∀ n other, chart n = some other → range.Nests other := by
  have hmem : Job.mk members (.build serial tuples) ∈ s.pool.jobs :=
    hothers.mem_iff.2 List.mem_cons_self
  have hmembers := hr.infix_listed hmem List.mem_cons_self rfl
  intro n other hn
  obtain ⟨c, hplace, hcontains⟩ := hr.home n other hn
  refine Range.nests_of_contains ?_ hcontains
  rcases hplace with hlisted | hwaits
  · obtain ⟨newer, older, rfl⟩ := hmembers
    exact Component.contains_or_apart_of_span hr.newer hspan c hlisted
  · -- another merge waits with its result; it holds other components
    obtain ⟨⟨ms, phase⟩, hj, hphase⟩ := ((pends_iff hothers c).1 hwaits).resolve_left (by simp)
    obtain rfl : phase = .swap c := hphase
    have hj' : Job.mk ms (.swap c) ∈ s.pool.jobs := hothers.mem_iff.2 (List.mem_cons_of_mem _ hj)
    have htokens := (hr.orderly.perm (parties_perm_worker hothers)).tokens
    rw [List.flatMap_cons] at htokens
    refine .inr (Component.apart_of_span hr.newer hmembers
      (hr.infix_listed hj' List.mem_cons_self rfl) (fun m hm hms => ?_) hspan
      ((hr.jobs _ hj').spans c rfl))
    refine (List.nodup_append.1 htokens).2.2 m (List.mem_append_left _ hm) m ?_ rfl
    exact List.mem_flatMap.2
      ⟨_, List.mem_append_left _ (List.mem_map_of_mem hj), List.mem_append_left _ hms⟩

/-- A merge that comes to a result has written a file, of the range of its members. -/
theorem exists_build {job job' : Job} {c : Component} (hstep : s.stepJob job = some (t, job'))
    (hphase : job'.phase = .swap c) :
    ∃ serial tuples range files, job.phase = .build serial tuples ∧ job.range? = some range ∧
      s.files.build s.format serial range tuples = (files, .ok c) ∧ t = { s with files } ∧
      job' = { job with phase := .swap c } := by
  obtain ⟨phase, new, rfl, hmerges⟩ := merges_of_stepJob hstep
  obtain rfl : phase = .swap c := hphase
  generalize hgoal : Job.Phase.swap c = phase at hmerges
  cases hmerges with
  | build hrange hbuild =>
    obtain rfl := Job.Phase.swap.inj hgoal
    exact ⟨_, _, _, _, rfl, hrange, hbuild, rfl, rfl⟩
  | @readFails _ f => cases f <;> contradiction
  | @buildFails _ _ _ _ f => cases f <;> contradiction
  | _ => contradiction

/-- A merge writes its result, whose range is ready to be put on the chart. -/
theorem builtWork (hr : Ranked s seen chart listed known) {i : Nat} {job job' : Job} {c : Component}
    (hjob : s.pool.jobOf? i = some job) (hstep : s.stepJob job = some (t, job'))
    (hphase : job'.phase = .swap c) (hlasts : t.Lasts) :
    Ranked { t with pool := t.pool.setWorker i (workerOf job') } (t.files.SeenWith seen)
      (chart.add c.serial c.range) listed known := by
  obtain ⟨others, hothers⟩ := Pool.exists_jobs_perm hjob
  have hmem : job ∈ s.pool.jobs := hothers.mem_iff.2 List.mem_cons_self
  have horderly := hr.orderly.perm (parties_perm_worker hothers)
  obtain ⟨serial, tuples, range, files, hbuilding, hspan, hbuild, rfl, rfl⟩ :=
    exists_build hstep hphase
  obtain ⟨members, phase⟩ := job
  obtain rfl : phase = _ := hbuilding
  have hafter := orderly_stepJob hr.lists horderly (fun _ heq => nomatch heq) hstep
  have hserial := Directory.serial_build hbuild
  have hlow : serial < s.nextSerial := taken hr.orderly hmem rfl
  have hnew : chart serial = none := (hr.jobs _ hmem).fresh serial tuples rfl
  have hmembers := hr.infix_listed hmem List.mem_cons_self rfl
  obtain ⟨hordered, hmax⟩ := Range.bounds_of_span hspan (List.forall_mem_map.2 fun m hm =>
    hr.bounds m (hmembers.subset hm))
  obtain ⟨hrange, file, htells, hfiles⟩ :=
    Directory.tells_build hbuild hordered (Nat.lt_trans hmax hr.lasts.stamps)
  subst hserial hrange
  have hpends := pends_work hjob hothers (t := { s with files }) (.inl rfl) ⟨members, .swap c⟩
  exact {
    lists := hr.lists
    orderly := orderly_worker hjob hothers rfl hafter
    lasts := ⟨hr.lasts.serials, hr.lasts.stamps⟩
    newer := hr.newer
    bounds := hr.bounds
    covers := (hr.covers.add hnew hordered (hr.nests_of_build hothers hspan) htells).mono
      (hr.sub_built hfiles)
    low := fun n other hn => by
      rcases Chart.add_eq_some_iff.1 hn with ⟨rfl, rfl⟩ | ⟨-, hn⟩
      · exact ⟨hlow, hmax⟩
      · exact hr.low n other hn
    home := fun n other hn => by
      rcases Chart.add_eq_some_iff.1 hn with ⟨rfl, rfl⟩ | ⟨-, hn⟩
      · exact ⟨c, .inr ((hpends c).2 (.inl rfl)), Range.contains_self _⟩
      · obtain ⟨b, hplace, hcontains⟩ := hr.home n other hn
        refine ⟨b, hplace.imp id fun hwaits => (hpends b).2 (.inr ?_), hcontains⟩
        exact ((pends_iff hothers b).1 hwaits).resolve_left fun heq => nomatch heq
    files := fun _ _ _ => .inr
    jobs := by
      refine forall_jobs_work hjob hothers (t := { s with files }) (.inl rfl)
        (fun j hj => Job.due_of_plain (Job.plain_of_read hj)) (fun j hj => ?_)
        ⟨fun _ _ heq => (nomatch heq), fun b heq => ?_⟩
      · have hdue := hr.jobs j (hothers.mem_iff.2 (List.mem_cons_of_mem _ hj))
        refine ⟨fun serial' tuples' heq => ?_, hdue.spans⟩
        rw [Chart.add_of_ne _ (serial_ne_of_others hr.orderly hothers hj heq).symm]
        exact hdue.fresh serial' tuples' heq
      · obtain rfl := Job.Phase.swap.inj heq
        exact hspan }

/-- The result of a merge is put in place of its members, which it spans. -/
theorem swapWork (hr : Ranked s seen chart listed known) {i : Nat} {members : List Component}
    {result : Component} {job' : Job} (hjob : s.pool.jobOf? i = some ⟨members, .swap result⟩)
    (hstep : s.stepJob ⟨members, .swap result⟩ = some (t, job')) :
    ∃ newer older roster, listed = newer ++ members ++ older ∧
      t = { s with board := { s.board with roster } } ∧
      job' = ⟨members, .retire result members⟩ ∧
      Ranked { t with pool := t.pool.setWorker i (workerOf job') } seen chart
        (newer ++ [result] ++ older) (result :: known) := by
  obtain ⟨others, hothers⟩ := Pool.exists_jobs_perm hjob
  have hmem : Job.mk members (.swap result) ∈ s.pool.jobs := hothers.mem_iff.2 List.mem_cons_self
  have horderly := hr.orderly.perm (parties_perm_worker hothers)
  have hspan : Range.span (members.map Component.range) = some result.range :=
    (hr.jobs _ hmem).spans result rfl
  obtain ⟨hne, hcovers, -⟩ := Range.span_spec hspan
  obtain ⟨newer, older, roster, rfl, hrun, hlists, hafter⟩ := orderly_swap hr.lists horderly
    (fun hnil => hne (by rw [hnil, List.map_nil])) (Nat.le_of_lt hr.lasts.serials)
  obtain ⟨rfl, rfl⟩ := Prod.mk.inj (Option.some.inj (hrun.symm.trans hstep))
  have hplain : (Job.mk members (.retire result members)).Plain := trivial
  have hbounds := Range.bounds_of_span hspan (List.forall_mem_map.2 fun m hm =>
    hr.bounds m (by simp [hm]))
  refine ⟨newer, older, roster, rfl, rfl, rfl, {
    lists := hlists
    orderly := orderly_worker hjob hothers rfl (.inl ⟨rfl, hafter⟩)
    lasts := ⟨hr.lasts.serials, hr.lasts.stamps⟩
    newer := Component.newer_replace hr.newer hspan
    bounds := fun c hc =>
      (mem_of_mem_replace members hc).elim (fun heq => heq ▸ hbounds) (hr.bounds c)
    covers := hr.covers
    low := hr.low
    home := fun n range hn => ?_
    files := hr.files
    jobs := ?_ }⟩
  · obtain ⟨c, hplace, hcontains⟩ := hr.home n range hn
    have hresult : result ∈ newer ++ [result] ++ older := by simp
    rcases hplace with hlisted | hwaits
    · by_cases hmember : c ∈ members
      · exact ⟨result, .inl hresult,
          Range.contains_trans (hcovers _ (List.mem_map_of_mem hmember)) hcontains⟩
      · exact ⟨c, .inl (mem_replace_of_not_mem result hlisted hmember), hcontains⟩
    · rcases (pends_iff hothers c).1 hwaits with heq | hother
      · obtain rfl := Job.Phase.swap.inj heq
        exact ⟨result, .inl hresult, hcontains⟩
      · refine ⟨c, .inr ?_, hcontains⟩
        exact (pends_work hjob hothers (t := { s with board := { s.board with roster } }) (.inl rfl)
          ⟨members, .retire result members⟩ c).2 (.inr hother)
  · exact forall_jobs_work hjob hothers (t := { s with board := { s.board with roster } })
      (.inl rfl)
      (fun j hj => Job.due_of_plain (Job.plain_of_read hj))
      (fun j hj => hr.jobs j (hothers.mem_iff.2 (List.mem_cons_of_mem _ hj)))
      (Job.due_of_plain hplain)

/-- Components stay by range when a merge takes a step. -/
theorem work (hr : Ranked s seen chart listed known) {i : Nat} (hstep : s.work i = some t)
    (hlasts : t.Lasts) :
    ∃ chart' listed' known', Ranked t (t.files.SeenWith seen) chart' listed' known' := by
  obtain ⟨job, s', job', hjob, hrun, rfl⟩ := work_eq_some_iff.1 hstep
  have hlasts' : s'.Lasts := ⟨hlasts.serials, hlasts.stamps⟩
  by_cases hswap : ∃ result, job.phase = .swap result
  · obtain ⟨members, phase⟩ := job
    obtain ⟨result, rfl⟩ := hswap
    obtain ⟨newer, older, roster, -, -, -, hr'⟩ := hr.swapWork hjob hrun
    exact ⟨_, _, _, hr'.seenWith⟩
  by_cases hbuilt : ∃ c, job'.phase = .swap c
  · obtain ⟨c, hphase⟩ := hbuilt
    exact ⟨_, _, _, hr.builtWork hjob hrun hphase hlasts'⟩
  · exact ⟨_, _, _, (hr.quietWork hjob (fun c heq => hswap ⟨c, heq⟩)
      (fun _ _ c _ heq => hbuilt ⟨c, heq⟩) hrun hlasts').seenWith⟩

/-- Components stay by range whatever happens next. -/
theorem turn (hr : Ranked s seen chart listed known) {τ : Turn} (hproper : τ.Proper)
    (hfiles : ∀ d, τ = .files d → d.Within seen) (hturn : s.turn τ = some t) (hlasts : t.Lasts) :
    ∃ chart' listed' known', Ranked t (t.files.SeenWith seen) chart' listed' known' := by
  cases τ with
  | action a =>
    cases a with
    | call task =>
      obtain rfl := Option.some.inj hturn
      exact ⟨_, _, _, (hr.call hproper).seenWith⟩
    | client i => exact hr.client hturn hlasts
    | take i =>
      obtain ⟨pool, htake, rfl⟩ := Option.map_eq_some_iff.1 hturn
      exact ⟨_, _, _, (hr.passOn (Pool.jobs_take htake)).seenWith⟩
    | work i => exact hr.work hturn hlasts
    | reap serial => exact ⟨_, _, _, (hr.reap hturn).seenWith⟩
    | shutdown =>
      obtain rfl := Option.some.inj hturn
      exact ⟨_, _, _, (hr.passOn (List.Perm.of_eq Pool.jobs_shutdown)).seenWith⟩
  | files d =>
    obtain rfl := Option.some.inj hturn
    exact ⟨_, _, _, (@refile _ _ _ _ _ hr d (hfiles d rfl) s.retired).seenWith⟩
  | failMerge i f => exact ⟨_, _, _, (hr.failMerge hturn).seenWith⟩
  | failFlush i f => exact ⟨_, _, _, (hr.failFlush hturn hlasts).seenWith⟩

end Ranked

end Store

end Strata
