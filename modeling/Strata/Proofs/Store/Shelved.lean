import Strata.Proofs.Store.Ranked

/-!
# Files in their places

As long as nobody but the index touches component files, that of every component listed is in its
place, and so is that of every result that waits: under the name that its number and its range make,
and as long as the component tells. For a file is written where there is none of its name, and one
is removed only of a component that was merged away. And there are no others, apart from those of
components merged away that have yet to be removed.
-/

namespace Strata

/-- The file of a component is in its place in a directory, and as long as the component tells. -/
structure Component.InPlace (c : Component) (d : Directory) : Prop where
  named : c.file = .ok (FileName.ofComponent c.id c.range)
  lies : ∃ file, d.find? (FileName.ofComponent c.id c.range) = some file ∧ file.length = c.size

namespace Component.InPlace

variable {c : Component} {d d' : Directory}

theorem of_find? (h : c.InPlace d)
    (hfind : d'.find? (FileName.ofComponent c.id c.range) =
      d.find? (FileName.ofComponent c.id c.range)) : c.InPlace d' :=
  ⟨h.named, hfind.symm ▸ h.lies⟩

theorem erase (h : c.InPlace d) {name : String} (hname : FileName.ofComponent c.id c.range ≠ name) :
    c.InPlace (d.erase name) := by
  refine h.of_find? ?_
  rw [Directory.find?_erase, if_neg hname]

/-- A file stays in its place when another is built where there was none. -/
theorem built (h : c.InPlace d) {name : String} (hnone : d.find? name = none) (file : Bytes) :
    c.InPlace ((d.erase (FileName.draft name)).write name file) := by
  refine h.of_find? ?_
  rw [Directory.find?_built d file (FileName.isComponent_ofComponent ..), if_neg]
  intro heq
  obtain ⟨bytes, hfile, -⟩ := h.lies
  rw [heq, hnone] at hfile
  contradiction

end Component.InPlace

/-- A component that is built is in its place, and no other component file is new. -/
theorem Directory.inPlace_build {d d' : Directory} {format : Format} {serial : Nat} {range : Range}
    {tuples : List Tuple} {c : Component}
    (h : d.build format serial range tuples = (d', .ok c)) :
    c.InPlace d' ∧ (d.find? (FileName.ofComponent c.id c.range) = none →
      ∀ b : Component, b.InPlace d → b.InPlace d') ∧
    ∀ name file, FileName.isComponent name = true → d'.find? name = some file →
      name = FileName.ofComponent c.id c.range ∨ d.find? name = some file := by
  obtain ⟨w, v, file, -, -, hfinish, rfl⟩ := build_eq_ok_iff.1 h
  obtain ⟨filter, -, rfl, rfl⟩ := Writer.finish_eq_ok_iff.1 hfinish
  refine ⟨⟨rfl, _, ?_, rfl⟩, fun hnone b hb => hb.built hnone _, fun name bytes hname hfile => ?_⟩
  · rw [find?_write]
    exact if_pos rfl
  · rw [find?_built d _ hname] at hfile
    split at hfile
    · exact .inl ‹_›
    · exact .inr hfile

theorem Directory.sorted_build {d d' : Directory} {format : Format} {serial : Nat} {range : Range}
    {tuples : List Tuple} {c : Component} (hd : d.Sorted)
    (h : d.build format serial range tuples = (d', .ok c)) : d'.Sorted := by
  obtain ⟨w, v, file, -, -, -, rfl⟩ := build_eq_ok_iff.1 h
  exact sorted_write (sorted_erase hd _) ..

/-- The components that are not listed whose files a merge answers for: its result that waits, or
the members that it has yet to let go. -/
def Job.owed (job : Job) : List Component :=
  match job.phase with
  | .swap result => [result]
  | .retire _ rest => rest
  | _ => []

/-- A merge that reads or writes answers for nothing else. -/
theorem Job.owed_of_usesFiles {job : Job} (h : job.usesFiles = true) : job.owed = [] := by
  obtain ⟨members, phase⟩ := job
  cases phase <;> first | rfl | contradiction

theorem Job.leaving_of_owed {job : Job} (hswap : ∀ c, job.phase ≠ .swap c) {c : Component}
    (h : c ∈ job.owed) : c ∈ job.party.leaving := by
  obtain ⟨members, phase⟩ := job
  cases phase with
  | swap result => exact absurd rfl (hswap result)
  | retire result rest => exact h
  | _ => contradiction

namespace Store

/-- A component that is not listed has its file: a merge answers for it, or it has yet to be
removed. -/
def Owes (s : Store) (c : Component) : Prop := c ∈ s.retired ∨ ∃ job ∈ s.pool.jobs, c ∈ job.owed

/-- An index whose components come by range, with their files in their places, and no others but
those it has yet to remove. -/
structure Shelved (s : Store) (seen : String → Bytes → Prop) (chart : Chart)
    (listed known : List Component) : Prop extends Ranked s seen chart listed known where
  sorted : s.files.Sorted
  named : ∀ c ∈ known, c.file = .ok (FileName.ofComponent c.id c.range)
  places : ∀ c, c ∈ listed ∨ s.Pends c → c.InPlace s.files
  retired : ∀ c ∈ s.retired, c ∈ known ∧ c ∉ listed
  accounted : ∀ name file, FileName.isComponent name = true → s.files.find? name = some file →
    ∃ c, (c ∈ listed ∨ s.Owes c) ∧ name = FileName.ofComponent c.id c.range

variable {s t : Store} {seen seen' : String → Bytes → Prop} {chart chart' : Chart}
  {listed known : List Component}

/-- A merge that answers for a component is not over. -/
theorem mem_workerOf_owed {job : Job} {c : Component} (h : c ∈ job.owed) :
    job ∈ (workerOf job).job?.toList := by
  obtain ⟨members, phase⟩ := job
  cases phase with
  | «over» => contradiction
  | lost => contradiction
  | _ => exact List.mem_singleton_self _

/-- A client may have submitted a merge; nothing is lost by that. -/
theorem owes_of_submits (hsubmits : s.Submits t) (hretired : t.retired = s.retired) {c : Component}
    (h : s.Owes c) : t.Owes c := by
  obtain ⟨new, -, hjobs⟩ := mem_jobs_of_submits hsubmits
  refine h.imp (fun hc => hretired ▸ hc) fun howed => ?_
  obtain ⟨job, hjob, hc⟩ := howed
  exact ⟨job, (hjobs job).2 (.inr hjob), hc⟩

section Work

variable {i : Nat} {job : Job} {others : List Job} {c : Component}

/-- What other merges answer for stays so when a merge takes a step. -/
theorem owes_work (hjob : s.pool.jobOf? i = some job) (hothers : s.pool.jobs.Perm (job :: others))
    (hsubmits : s.Submits t) (hretired : s.retired ⊆ t.retired) (job' : Job) (h : s.Owes c) :
    c ∈ job.owed ∨ Owes { t with pool := t.pool.setWorker i (workerOf job') } c := by
  obtain ⟨new, -, hafter⟩ := mem_jobs_work hjob hothers hsubmits job'
  rcases h with hc | ⟨j, hj, hc⟩
  · exact .inr (.inl (hretired hc))
  · rcases List.mem_cons.1 (hothers.mem_iff.1 hj) with rfl | hj
    · exact .inl hc
    · exact .inr (.inr ⟨j, (hafter j).2 (.inr (.inr hj)), hc⟩)

/-- A merge answers for what it owes after its step. -/
theorem owes_of_owed (hjob : s.pool.jobOf? i = some job)
    (hothers : s.pool.jobs.Perm (job :: others)) (hsubmits : s.Submits t) {job' : Job}
    (h : c ∈ job'.owed) : Owes { t with pool := t.pool.setWorker i (workerOf job') } c := by
  obtain ⟨new, -, hafter⟩ := mem_jobs_work hjob hothers hsubmits job'
  exact .inr ⟨job', (hafter job').2 (.inl (mem_workerOf_owed h)), h⟩

/-- A merge that puts nothing in place goes on to answer for what it owes, or has it removed. -/
theorem owed_stepJob {job' : Job} (hswap : ∀ c, job.phase ≠ .swap c)
    (hmerging : ∀ c ∈ job.owed, s.state c = .merging) (hstep : s.stepJob job = some (t, job')) :
    s.retired ⊆ t.retired ∧ ∀ c ∈ job.owed, c ∈ t.retired ∨ c ∈ job'.owed := by
  obtain ⟨phase, new, rfl, hmerges⟩ := merges_of_stepJob hstep
  cases hmerges with
  | swapFails => exact absurd rfl (hswap _)
  | swap => exact absurd rfl (hswap _)
  | retireLost hstate => exact absurd (hmerging _ List.mem_cons_self) hstate
  | retire hstate =>
    rename_i members rest result b retired
    obtain rfl : retired = s.retired ++ [b] := retired_of_stepJob hstate hstep
    refine ⟨List.subset_append_left _ _, List.forall_mem_cons.2 ⟨.inl ?_, fun c hc => .inr hc⟩⟩
    exact List.mem_append_right _ (List.mem_singleton_self b)
  | consult hconsults =>
    refine ⟨?_, fun c hc => nomatch hc⟩
    rw [(unmoved_consults hconsults).retired]
    exact List.Subset.refl _
  | _ => exact ⟨List.Subset.refl _, fun c hc => nomatch hc⟩

end Work

namespace Shelved

/-- What lists nothing and touches no component file keeps files in their places. -/
theorem frame (h : Shelved s seen chart listed known) (hr : Ranked t seen' chart' listed known)
    (hfiles : t.files = s.files ∨ ∃ name file, t.files = s.files.write (FileName.draft name) file)
    (hpends : ∀ c, t.Pends c → s.Pends c) (howes : ∀ c, s.Owes c → t.Owes c)
    (hretired : ∀ c ∈ t.retired, c ∈ s.retired ∨ c ∈ known ∧ c ∉ listed) :
    Shelved t seen' chart' listed known :=
  { hr with
    named := h.named
    sorted := by
      rcases hfiles with heq | ⟨name, file, heq⟩
      · exact heq ▸ h.sorted
      · exact heq ▸ Directory.sorted_write h.sorted _ file
    places := fun c hplace => (h.places c (hplace.imp id (hpends c))).of_find?
      (find?_of_drafted hfiles (FileName.isComponent_ofComponent ..))
    retired := fun c hc => (hretired c hc).elim (h.retired c) id
    accounted := fun name file hname hfile => by
      rw [find?_of_drafted hfiles hname] at hfile
      obtain ⟨c, hplace, heq⟩ := h.accounted name file hname hfile
      exact ⟨c, hplace.imp id (howes c), heq⟩ }

theorem seenWith (h : Shelved s seen chart listed known) :
    Shelved s (s.files.SeenWith seen) chart listed known :=
  h.frame h.toRanked.seenWith (.inl rfl) (fun _ => id) (fun _ => id) fun _ => .inl

/-- A component that is not known is none that was merged away. -/
theorem retired_list (h : Shelved s seen chart listed known) {c : Component} (hnew : c ∉ known)
    {listed' : List Component} (hlisted : ∀ b ∈ listed', b = c ∨ b ∈ listed) :
    ∀ b ∈ s.retired, b ∈ c :: known ∧ b ∉ listed' := by
  intro b hb
  obtain ⟨hknown, hout⟩ := h.retired b hb
  refine ⟨List.mem_cons_of_mem _ hknown, fun hmem => ?_⟩
  rcases hlisted b hmem with rfl | hin
  · exact hnew hknown
  · exact hout hin

/-- There is no file yet of a component whose count is not on the chart, and all others stay in
their places when it is built, without any more. -/
theorem inPlace_build (h : Shelved s seen chart listed known) {serial : Nat} {range : Range}
    {tuples : List Tuple} {files : Directory} {c : Component}
    (hbuild : s.files.build s.format serial range tuples = (files, .ok c))
    (hnew : chart serial = none) (hserial : serial < Numeral.word) :
    c.InPlace files ∧ (∀ b : Component, b.InPlace s.files → b.InPlace files) ∧
      ∀ name file, FileName.isComponent name = true → files.find? name = some file →
        name = FileName.ofComponent c.id c.range ∨ s.files.find? name = some file := by
  obtain ⟨hself, hothers, hfiles⟩ := Directory.inPlace_build hbuild
  refine ⟨hself, hothers ?_, hfiles⟩
  rw [Component.id, Directory.serial_build hbuild]
  exact h.find?_eq_none hnew hserial _

/-- A flush puts the file of its component in place. -/
theorem flushed (h : Shelved s seen chart listed known) {c : Component}
    (hflush : s.flushMemory = (t, .ok (some c))) (hlasts : t.Lasts) :
    Shelved t (t.files.SeenWith seen) (chart.add c.serial c.range) (c :: listed) (c :: known) := by
  have hr := h.toRanked.flushed hflush hlasts
  obtain ⟨-, files, hbuild, rfl⟩ := flushMemory_eq_ok_iff.1 hflush
  obtain ⟨hself, hothers, hfiles⟩ := h.inPlace_build hbuild h.next_fresh h.lasts.serials
  have hnew : c ∉ known := fun hmem => by
    have hlow : c.serial < s.nextSerial := h.orderly.low c hmem
    rw [Directory.serial_build hbuild] at hlow
    exact Nat.lt_irrefl _ hlow
  exact { hr with
    sorted := Directory.sorted_build h.sorted hbuild
    named := List.forall_mem_cons.2 ⟨hself.named, h.named⟩
    places := fun b hplace => by
      rcases hplace with hlisted | hpends
      · rcases List.mem_cons.1 hlisted with rfl | hlisted
        · exact hself
        · exact hothers b (h.places b (.inl hlisted))
      · exact hothers b (h.places b (.inr hpends))
    retired := h.retired_list hnew fun b hb => List.mem_cons.1 hb
    accounted := fun name file hname hfile => by
      rcases hfiles name file hname hfile with heq | hfile
      · exact ⟨c, .inl List.mem_cons_self, heq⟩
      · obtain ⟨b, hplace, heq⟩ := h.accounted name file hname hfile
        exact ⟨b, hplace.imp (List.mem_cons_of_mem _) id, heq⟩ }

/-- A flush that writes nothing, or fails, touches no component file. -/
theorem unflushed (h : Shelved s seen chart listed known) {answer : Outcome (Option Component)}
    (hflush : s.flushMemory = (t, answer)) (hnone : ∀ c, answer ≠ .ok (some c)) (hlasts : t.Lasts) :
    Shelved t seen chart listed known := by
  have hr := h.toRanked.unflushed hflush hnone hlasts
  rcases flushMemory_cases hflush hnone with rfl | ⟨name, file, rfl⟩
  · exact h
  · exact h.frame hr (.inr ⟨name, file, rfl⟩) (fun _ => id) (fun _ => id) fun _ => .inl

/-- A client goes on to what has as little of components. -/
theorem setClient (h : Shelved s seen chart listed known) {i : Nat} {task task' : Task}
    (htask : s.clients[i]? = some task) (hparty : task'.party = task.party) :
    Shelved { s with clients := s.clients.set i task' } seen chart listed known :=
  h.frame (h.toRanked.setClient htask hparty) (.inl rfl) (fun _ => id) (fun _ => id)
    fun _ => .inl

/-- A client takes a step that touches neither files nor tuples nor the list of components. -/
theorem calmClient (h : Shelved s seen chart listed known) {i : Nat} {task task' : Task}
    (htask : s.clients[i]? = some task) (hstep : s.stepTask task = some (t, task'))
    (hinsert : ∀ key tuple, task ≠ .insert key tuple) (hflush : task ≠ .flush) (hlasts : t.Lasts) :
    Shelved { t with clients := t.clients.set i task' } seen chart listed known := by
  obtain ⟨hunmoved, -⟩ := unmoved_stepTask hstep hinsert hflush
  obtain ⟨rest, hperm, -⟩ := orderly_client htask
  have hsubmits : s.Submits { t with clients := t.clients.set i task' } :=
    (orderly_stepTask h.lists (h.orderly.perm hperm) hflush hstep).submits
  refine h.frame (h.toRanked.calmClient htask hstep hinsert hflush hlasts) (.inl hunmoved.files)
    (fun c => (pends_of_submits hsubmits c).1)
    (fun _ => owes_of_submits hsubmits hunmoved.retired) fun c hc => .inl ?_
  rw [← hunmoved.retired]
  exact hc

/-- A client flushes. -/
theorem flushClient (h : Shelved s seen chart listed known) {i : Nat} {task' : Task}
    (htask : s.clients[i]? = some .flush) (hstep : s.stepTask .flush = some (t, task'))
    (hlasts : t.Lasts) :
    ∃ chart' listed' known', Shelved { t with clients := t.clients.set i task' }
      (t.files.SeenWith seen) chart' listed' known' := by
  rcases flush_stepTask hstep with ⟨answer, hflush, hnone, rfl⟩ | ⟨c, hflush, rfl⟩
  · rw [← clients_flushMemory hflush] at htask
    have hset : Shelved { t with clients := t.clients.set i (.returned (answer.map fun _ => ())) }
        seen chart listed known := (h.unflushed hflush hnone hlasts).setClient htask rfl
    exact ⟨_, _, _, hset.seenWith⟩
  · rw [← clients_flushMemory hflush] at htask
    exact ⟨_, _, _, (h.flushed hflush hlasts).setClient htask rfl⟩

/-- Files stay in their places when a client takes a step. -/
theorem client (h : Shelved s seen chart listed known) {i : Nat} (hstep : s.client i = some t)
    (hlasts : t.Lasts) :
    ∃ chart' listed' known', Shelved t (t.files.SeenWith seen) chart' listed' known' := by
  obtain ⟨task, s', task', htask, hrun, rfl⟩ := client_eq_some_iff.1 hstep
  have hlasts' : s'.Lasts := ⟨hlasts.serials, hlasts.stamps⟩
  rcases task.inserts_or_flushes_or_neither with ⟨key, tuple, rfl⟩ | rfl | ⟨hinsert, hflush⟩
  · obtain ⟨rfl, rfl⟩ := Prod.mk.inj (Option.some.inj hrun)
    have hmemory : Shelved { s with memory := s.memory.insert key tuple } seen chart listed known :=
      h.frame (h.toRanked.remember _) (.inl rfl) (fun _ => id) (fun _ => id) fun _ => .inl
    refine ⟨_, _, _, (hmemory.setClient htask ?_).seenWith⟩
    split <;> rfl
  · exact h.flushClient htask hrun hlasts'
  · exact ⟨_, _, _, (h.calmClient htask hrun hinsert hflush hlasts').seenWith⟩

/-- The pool may pass its jobs on. -/
theorem passOn (h : Shelved s seen chart listed known) {pool : Pool Job}
    (hjobs : pool.jobs.Perm s.pool.jobs) : Shelved { s with pool } seen chart listed known :=
  h.frame (h.toRanked.passOn hjobs) (.inl rfl)
    (fun _ hpends => by simpa only [Pends, hjobs.mem_iff] using hpends)
    (fun _ howes => by simpa only [Owes, hjobs.mem_iff] using howes) fun _ => .inl

/-- The file of a component merged away is removed, and no other. -/
theorem reap (h : Shelved s seen chart listed known) {serial : Nat}
    (hstep : s.reap serial = some t) : Shelved t seen chart listed known := by
  have hr := h.toRanked.reap hstep
  obtain ⟨gone, hfind, hrest⟩ := Option.bind_eq_some_iff.1 hstep
  obtain ⟨name, hname, heq⟩ := Option.bind_eq_some_iff.1 hrest
  obtain rfl := Option.some.inj heq
  obtain ⟨hknown, hout⟩ := h.retired gone (List.mem_of_find?_eq_some hfind)
  rw [h.named gone hknown] at hname
  obtain rfl := Option.some.inj hname
  have hlow : gone.serial < s.nextSerial := h.orderly.low gone hknown
  refine { hr with
    sorted := Directory.sorted_erase h.sorted _
    named := h.named
    places := fun c hplace => (h.places c hplace).erase fun hsame => ?_
    retired := fun c hc => h.retired c (List.mem_filter.1 hc).1
    accounted := fun name file hname hfile => ?_ }
  · -- of two components with one name the counts are the same, as long as counts last
    have hids := (FileName.ofComponent_eq_iff.1 hsame).1
    have hserials : c.serial < s.nextSerial → c.serial = gone.serial := fun hc => by
      have := h.lasts.serials
      rwa [Component.id_of_lt (by omega), Component.id_of_lt (by omega)] at hids
    rcases hplace with hlisted | ⟨job, hjob, hphase⟩
    · have hin := h.orderly.listed c hlisted
      obtain rfl := Desk.eq_of_serial_eq h.orderly hin hknown (hserials (h.orderly.low c hin))
      exact hout hlisted
    · have hmaking : c.serial ∈ job.party.making := by
        rw [Job.party, hphase]
        exact List.mem_singleton_self _
      obtain ⟨hbelow, hnew⟩ := (h.orderly.admits _ (mem_parties hjob)).making _ hmaking
      exact hnew gone hknown (hserials hbelow).symm
  · rw [Directory.find?_erase] at hfile
    split at hfile
    · contradiction
    · rename_i hother
      obtain ⟨c, hplace, rfl⟩ := h.accounted name file hname hfile
      refine ⟨c, hplace.imp id fun howes => howes.imp (fun hc => ?_) id, rfl⟩
      refine List.mem_filter.2 ⟨hc, decide_eq_true fun hserial => hother ?_⟩
      have hgone : gone.serial = serial := by simpa using List.find?_some hfind
      rw [Desk.eq_of_serial_eq h.orderly (h.retired c hc).1 hknown (hserial.trans hgone.symm)]

/-- A merge takes a step that lists nothing and writes no component file. -/
theorem quietWork (h : Shelved s seen chart listed known) {i : Nat} {job job' : Job}
    (hjob : s.pool.jobOf? i = some job) (hswap : ∀ c, job.phase ≠ .swap c)
    (hbuild : ∀ serial tuples c, job.phase = .build serial tuples → job'.phase ≠ .swap c)
    (hstep : s.stepJob job = some (t, job')) (hlasts : t.Lasts) :
    Shelved { t with pool := t.pool.setWorker i (workerOf job') } seen chart listed known := by
  obtain ⟨others, hothers⟩ := Pool.exists_jobs_perm hjob
  have horderly := h.orderly.perm (parties_perm_worker hothers)
  have hsubmits := (orderly_stepJob h.lists horderly hswap hstep).submits
  obtain ⟨hquiet, hretired, hplain⟩ := quiet_stepJob hswap hbuild hstep
  have hmerging : ∀ c ∈ job.owed, s.state c = .merging := fun c hc =>
    ((horderly.admits _ List.mem_cons_self).leaving c (Job.leaving_of_owed hswap hc)).2.2
  obtain ⟨hkept, howed⟩ := owed_stepJob hswap hmerging hstep
  have hnone : ∀ c, job'.phase ≠ .swap c := by
    intro c hphase
    rcases hplain with hplain | hcarries
    · rw [Job.Plain, hphase] at hplain
      exact hplain
    · cases hcarries <;> contradiction
  refine h.frame (h.toRanked.quietWork hjob hswap hbuild hstep hlasts)
    hquiet.files (fun c hpends => ?_) (fun c howes => ?_) fun c hc => ?_
  · exact (pends_iff hothers c).2
      (.inr (((pends_work hjob hothers hsubmits job' c).1 hpends).resolve_left (hnone c)))
  · rcases owes_work hjob hothers hsubmits hkept job' howes with hc | howes
    · exact (howed c hc).elim .inl (owes_of_owed hjob hothers hsubmits)
    · exact howes
  · refine (hretired c hc).imp id fun hleaving => ?_
    obtain ⟨hknown, hout, -⟩ := (horderly.admits _ List.mem_cons_self).leaving c hleaving
    exact ⟨hknown, hout⟩

/-- A merge writes its result, which waits in its place. -/
theorem builtWork (h : Shelved s seen chart listed known) {i : Nat} {job job' : Job} {c : Component}
    (hjob : s.pool.jobOf? i = some job) (hstep : s.stepJob job = some (t, job'))
    (hphase : job'.phase = .swap c) (hlasts : t.Lasts) :
    Shelved { t with pool := t.pool.setWorker i (workerOf job') } (t.files.SeenWith seen)
      (chart.add c.serial c.range) listed known := by
  have hr := h.toRanked.builtWork hjob hstep hphase hlasts
  obtain ⟨others, hothers⟩ := Pool.exists_jobs_perm hjob
  have hmem : job ∈ s.pool.jobs := hothers.mem_iff.2 List.mem_cons_self
  obtain ⟨serial, tuples, range, files, hbuilding, -, hbuild, rfl, rfl⟩ :=
    Ranked.exists_build hstep hphase
  have hlow : serial < s.nextSerial := taken h.orderly hmem hbuilding
  obtain ⟨hself, hplaces, hfiles⟩ := h.inPlace_build hbuild
    ((h.jobs job hmem).fresh serial tuples hbuilding) (Nat.lt_trans hlow h.lasts.serials)
  have hsubmits : s.Submits { s with files } := .inl rfl
  refine { hr with
    sorted := Directory.sorted_build h.sorted hbuild
    named := h.named
    places := fun b hplace => ?_
    retired := h.retired
    accounted := fun name file hname hfile => ?_ }
  · rcases hplace with hlisted | hpends
    · exact hplaces b (h.places b (.inl hlisted))
    · rcases (pends_work hjob hothers hsubmits _ b).1 hpends with heq | hother
      · obtain rfl := Job.Phase.swap.inj heq
        exact hself
      · exact hplaces b (h.places b (.inr ((pends_iff hothers b).2 (.inr hother))))
  · rcases hfiles name file hname hfile with heq | hfile
    · have howed : c ∈ Job.owed { job with phase := .swap c } := List.mem_singleton_self c
      exact ⟨c, .inr (owes_of_owed hjob hothers hsubmits howed), heq⟩
    · obtain ⟨b, hplace, heq⟩ := h.accounted name file hname hfile
      have hnone : job.owed = [] := by rw [Job.owed, hbuilding]
      refine ⟨b, hplace.imp id fun howes => ?_, heq⟩
      refine (owes_work hjob hothers hsubmits (List.Subset.refl _) _ howes).resolve_left ?_
      rw [hnone]
      exact List.not_mem_nil

/-- The result of a merge is put in place of its members, with its file in its own place. -/
theorem swapWork (h : Shelved s seen chart listed known) {i : Nat} {members : List Component}
    {result : Component} {job' : Job} (hjob : s.pool.jobOf? i = some ⟨members, .swap result⟩)
    (hstep : s.stepJob ⟨members, .swap result⟩ = some (t, job')) :
    ∃ listed', Shelved { t with pool := t.pool.setWorker i (workerOf job') } seen chart listed'
      (result :: known) := by
  obtain ⟨newer, older, roster, rfl, rfl, rfl, hr⟩ := h.toRanked.swapWork hjob hstep
  obtain ⟨others, hothers⟩ := Pool.exists_jobs_perm hjob
  have hmem : Job.mk members (.swap result) ∈ s.pool.jobs := hothers.mem_iff.2 List.mem_cons_self
  have hself := h.places result (.inr ⟨_, hmem, rfl⟩)
  have hnew : result ∉ known := fun hin =>
    ((h.orderly.admits _ (mem_parties hmem)).making _ (List.mem_singleton_self _)).2 result hin rfl
  have hlisted : ∀ b ∈ newer ++ [result] ++ older, b = result ∨ b ∈ newer ++ members ++ older :=
    fun b => mem_of_mem_replace members
  have hsubmits : s.Submits { s with board := { s.board with roster } } := .inl rfl
  refine ⟨newer ++ [result] ++ older, { hr with
    sorted := h.sorted
    named := List.forall_mem_cons.2 ⟨hself.named, h.named⟩
    places := fun b hplace => ?_
    retired := h.retired_list hnew hlisted
    accounted := fun name file hname hfile => ?_ }⟩
  · rcases hplace with hin | hpends
    · rcases hlisted b hin with rfl | hin
      · exact hself
      · exact h.places b (.inl hin)
    · have hothers' := (pends_work hjob hothers hsubmits _ b).1 hpends
      exact h.places b (.inr ((pends_iff hothers b).2 (.inr (hothers'.resolve_left (by simp)))))
  · obtain ⟨b, hplace, heq⟩ := h.accounted name file hname hfile
    refine ⟨b, ?_, heq⟩
    rcases hplace with hin | howes
    · -- the merge has yet to let its members go
      by_cases hmember : b ∈ members
      · exact .inr (owes_of_owed hjob hothers hsubmits hmember)
      · exact .inl (mem_replace_of_not_mem result hin hmember)
    · rcases owes_work hjob hothers hsubmits (List.Subset.refl _) _ howes with hresult | howes
      · obtain rfl := List.mem_singleton.1 hresult
        exact .inl (List.mem_append_left _ (List.mem_append_right _ (List.mem_singleton_self b)))
      · exact .inr howes

/-- A merge that fails as it reads or writes touches no component file. -/
theorem failMerge (h : Shelved s seen chart listed known) {i : Nat} {f : Failure}
    (hfail : s.failMerge i f = some t) : Shelved t seen chart listed known := by
  have hr := h.toRanked.failMerge hfail
  obtain ⟨job, hjob, huses, rfl⟩ := failMerge_eq_some_iff.1 hfail
  obtain ⟨others, hothers⟩ := Pool.exists_jobs_perm hjob
  refine h.frame hr (.inl rfl) (fun c hpends => ?_) (fun c howes => ?_) fun _ => .inl
  · have hpends' := (pends_work hjob hothers (t := s) (.inl rfl) _ c).1 hpends
    exact (pends_iff hothers c).2 (.inr (hpends'.resolve_left (by cases f <;> simp [Job.phaseOf])))
  · refine (owes_work hjob hothers (.inl rfl) (List.Subset.refl _) _ howes).resolve_left ?_
    rw [Job.owed_of_usesFiles huses]
    exact List.not_mem_nil

/-- A flush that fails as it writes touches no component file. -/
theorem failFlush (h : Shelved s seen chart listed known) {i : Nat} {f : Failure}
    (hfail : s.failFlush i f = some t) (hlasts : t.Lasts) : Shelved t seen chart listed known := by
  have hr := h.toRanked.failFlush hfail hlasts
  obtain ⟨-, -, rfl⟩ := failFlush_eq_some_iff.1 hfail
  exact h.frame hr (.inl rfl) (fun _ => id) (fun _ => id) fun _ => .inl

/-- Files stay in their places when a merge takes a step. -/
theorem work (h : Shelved s seen chart listed known) {i : Nat} (hstep : s.work i = some t)
    (hlasts : t.Lasts) :
    ∃ chart' listed' known', Shelved t (t.files.SeenWith seen) chart' listed' known' := by
  obtain ⟨job, s', job', hjob, hrun, rfl⟩ := work_eq_some_iff.1 hstep
  have hlasts' : s'.Lasts := ⟨hlasts.serials, hlasts.stamps⟩
  by_cases hswap : ∃ result, job.phase = .swap result
  · obtain ⟨members, phase⟩ := job
    obtain ⟨result, rfl⟩ := hswap
    obtain ⟨listed', h'⟩ := h.swapWork hjob hrun
    exact ⟨_, _, _, h'.seenWith⟩
  by_cases hbuilt : ∃ c, job'.phase = .swap c
  · obtain ⟨c, hphase⟩ := hbuilt
    exact ⟨_, _, _, h.builtWork hjob hrun hphase hlasts'⟩
  · exact ⟨_, _, _, (h.quietWork hjob (fun c heq => hswap ⟨c, heq⟩)
      (fun _ _ c _ heq => hbuilt ⟨c, heq⟩) hrun hlasts').seenWith⟩

/-- Files stay in their places whatever happens next, as long as nobody else removes any. -/
theorem turn (h : Shelved s seen chart listed known) {τ : Turn} (hproper : τ.Proper)
    (hfiles : ∀ d, τ ≠ .files d) (hturn : s.turn τ = some t) (hlasts : t.Lasts) :
    ∃ chart' listed' known', Shelved t (t.files.SeenWith seen) chart' listed' known' := by
  cases τ with
  | action a =>
    cases a with
    | call task =>
      obtain rfl := Option.some.inj hturn
      exact ⟨_, _, _, (h.frame (h.toRanked.call hproper) (.inl rfl) (fun _ => id)
        (fun _ => id) fun _ => .inl).seenWith⟩
    | client i => exact h.client hturn hlasts
    | take i =>
      obtain ⟨pool, htake, rfl⟩ := Option.map_eq_some_iff.1 hturn
      exact ⟨_, _, _, (h.passOn (Pool.jobs_take htake)).seenWith⟩
    | work i => exact h.work hturn hlasts
    | reap serial => exact ⟨_, _, _, (h.reap hturn).seenWith⟩
    | shutdown =>
      obtain rfl := Option.some.inj hturn
      exact ⟨_, _, _, (h.passOn (List.Perm.of_eq Pool.jobs_shutdown)).seenWith⟩
  | files d => exact absurd rfl (hfiles d)
  | failMerge i f => exact ⟨_, _, _, (h.failMerge hturn).seenWith⟩
  | failFlush i f => exact ⟨_, _, _, (h.failFlush hturn hlasts).seenWith⟩

end Shelved

end Store

end Strata
