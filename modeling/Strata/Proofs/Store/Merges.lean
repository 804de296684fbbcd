import Strata.Proofs.Store.Intact

/-!
# Merges keep an index intact

Up to the last one, a merge's steps touch no component file and list nothing. The step that writes
the result adds a record, whose file waits for its place. The step that puts it there changes
nothing of what is found: the result has the newest tuples of its members, which stand together.
-/

namespace Strata

/-- What a merge is about to do asks for nothing of records. -/
def Job.Plain (job : Job) : Prop :=
  match job.phase with
  | .number _ | .build _ _ | .swap _ => False
  | _ => True

theorem Job.sound_of_plain {r : Reading} {annals : List Record} {job : Job} (h : job.Plain) :
    job.Sound r annals ∧ job.Fresh annals := by
  obtain ⟨members, phase⟩ := job
  cases phase with
  | number tuples => exact h.elim
  | build serial tuples => exact h.elim
  | swap result => exact h.elim
  | _ => exact ⟨trivial, fun _ _ heq => nomatch heq⟩

theorem Job.plain_phaseOf (members : List Component) (f : Failure) :
    Job.Plain ⟨members, Job.phaseOf f⟩ := by
  cases f <;> trivial

namespace Store

variable {r : Reading} {s t : Store} {h : History} {listed : List Record} {known : List Component}

/-- A step lists nothing and writes no component file. -/
structure Quiet (s t : Store) : Prop where
  format : t.format = s.format
  roster : t.board.roster = s.board.roster
  memory : t.memory = s.memory
  clients : t.clients = s.clients
  serial : s.nextSerial ≤ t.nextSerial
  stamp : t.nextStamp = s.nextStamp
  files : t.files = s.files ∨ ∃ name file, t.files = s.files.write (FileName.draft name) file

/-- Of the component files, none is touched where at most one under construction is written. -/
theorem find?_of_drafted {d : Directory}
    (h : d = s.files ∨ ∃ name file, d = s.files.write (FileName.draft name) file) {name : String}
    (hname : FileName.isComponent name = true) : d.find? name = s.files.find? name := by
  rcases h with rfl | ⟨draft, file, rfl⟩
  · rfl
  · exact Directory.find?_write_draft _ draft file hname

/-- What a merge takes with it: what it has read, and the count of its result. -/
inductive Carries (s : Store) (job : Job) : Job → Prop where
  | read {range : Range} {tuples : List Tuple} (hphase : job.phase = .read)
      (hrange : job.range? = some range) (hmerged : s.merged job.members = .ok tuples) :
      Carries s job ⟨job.members, .number tuples⟩
  | number {tuples : List Tuple} (hphase : job.phase = .number tuples) :
      Carries s job ⟨job.members, .build s.nextSerial tuples⟩

/-- A member that a merge lets go is the last of those merged away. -/
theorem retired_of_stepJob {members rest : List Component} {result c : Component} {job' : Job}
    (hmerging : s.state c = .merging)
    (hstep : s.stepJob ⟨members, .retire result (c :: rest)⟩ = some (t, job')) :
    t.retired = s.retired ++ [c] := by
  simp only [stepJob] at hstep
  split at hstep
  · exact absurd hmerging (move_eq_error ‹_›)
  · rename_i u hmove
    obtain ⟨-, rfl⟩ := move_eq_ok hmove
    obtain ⟨rfl, -⟩ := Prod.mk.inj (Option.some.inj hstep)
    rfl

/-- A merge lists its result in one step and writes it in another. By any other step it only gives
components out of its hands, or takes something with it. -/
theorem quiet_stepJob {job job' : Job} (hswap : ∀ c, job.phase ≠ .swap c)
    (hbuild : ∀ serial tuples c, job.phase = .build serial tuples → job'.phase ≠ .swap c)
    (hstep : s.stepJob job = some (t, job')) :
    s.Quiet t ∧ (∀ c ∈ t.retired, c ∈ s.retired ∨ c ∈ job.party.leaving) ∧
      (job'.Plain ∨ s.Carries job job') := by
  have hsame : s.Quiet s := ⟨rfl, rfl, rfl, rfl, Nat.le_refl _, rfl, .inl rfl⟩
  have hkept : ∀ c ∈ s.retired, c ∈ s.retired ∨ c ∈ job.party.leaving := fun c hc => .inl hc
  obtain ⟨phase, new, rfl, hmerges⟩ := merges_of_stepJob hstep
  cases hmerges with
  | swapFails => exact absurd rfl (hswap _)
  | swap => exact absurd rfl (hswap _)
  | build => exact absurd rfl (hbuild _ _ _ rfl)
  | readFails => exact ⟨hsame, hkept, .inl (Job.plain_phaseOf ..)⟩
  | read =>
    -- what has been read is in the step itself
    simp only [stepJob] at hstep
    split at hstep
    · simp at hstep
    · rename_i range hrange
      split at hstep
      · rename_i f _
        cases f <;> simp [Job.phaseOf] at hstep
      · rename_i tuples' hmerged
        obtain rfl : tuples' = _ := by simpa using hstep
        exact ⟨hsame, hkept, .inr (.read rfl hrange hmerged)⟩
  | number =>
    exact ⟨⟨rfl, rfl, rfl, rfl, Nat.le_succ _, rfl, .inl rfl⟩, hkept, .inr (.number rfl)⟩
  | buildFails =>
    rename_i files f
    refine ⟨⟨rfl, rfl, rfl, rfl, Nat.le_refl _, rfl, ?_⟩, hkept, .inl (Job.plain_phaseOf ..)⟩
    simp only [stepJob] at hstep
    split at hstep
    · exact .inl (congrArg (fun u : Store × Job => u.1.files) (Option.some.inj hstep)).symm
    · split at hstep
      · rename_i files' e hfailed
        obtain rfl : files' = files :=
          congrArg (fun u : Store × Job => u.1.files) (Option.some.inj hstep)
        exact .inr (Directory.build_eq_error hfailed)
      · cases f <;> simp [Job.phaseOf] at hstep
  | retire =>
    rename_i members leaving result c retired hmerging
    refine ⟨⟨rfl, rfl, rfl, rfl, Nat.le_refl _, rfl, .inl rfl⟩, fun c' hc' => ?_, .inl trivial⟩
    obtain rfl : retired = s.retired ++ [c] := retired_of_stepJob hmerging hstep
    refine (List.mem_append.1 hc').imp id fun hmem => ?_
    rw [List.mem_singleton.1 hmem]
    exact List.mem_cons_self
  | consult hconsults =>
    have hunmoved := unmoved_consults hconsults
    refine ⟨⟨hunmoved.format, hunmoved.roster, hunmoved.memory, hunmoved.clients,
      Nat.le_of_eq hunmoved.serial.symm, hunmoved.stamp, .inl hunmoved.files⟩, ?_, .inl trivial⟩
    rw [hunmoved.retired]
    exact hkept
  | _ => exact ⟨⟨rfl, rfl, rfl, rfl, Nat.le_refl _, rfl, .inl rfl⟩, hkept, .inl trivial⟩

/-- No other merge has taken the same count for its result. -/
theorem serial_ne_of_others {listed : List Component}
    (horderly : (s.desk listed known).Orderly s.parties) {members : List Component} {serial : Nat}
    {tuples : List Tuple} {others : List Job}
    (hothers : s.pool.jobs.Perm (⟨members, .build serial tuples⟩ :: others)) {j : Job}
    (hj : j ∈ others) {serial' : Nat} {tuples' : List Tuple}
    (hphase : j.phase = .build serial' tuples') : serial ≠ serial' := by
  have hmaking := (horderly.perm (parties_perm_worker hothers)).making
  rw [List.flatMap_cons] at hmaking
  refine (List.nodup_append.1 hmaking).2.2 serial (List.mem_singleton_self serial) serial' ?_
  refine List.mem_flatMap.2 ⟨j.party, List.mem_append_left _ (List.mem_map_of_mem hj), ?_⟩
  rw [Job.party, hphase]
  exact List.mem_singleton_self serial'

namespace Intact

/-- The members of a merge that holds them are a stretch of the records listed. -/
theorem exists_parts (hi : Intact r s h listed known) {job : Job} (hjob : job ∈ s.pool.jobs)
    (htracked : job.members ∈ job.party.tracked) (hheld : job.party.held = job.members) :
    ∃ front parts back, listed = front ++ parts ++ back ∧
      parts.map Record.component = job.members ∧
      (∀ p ∈ parts, p ∈ h.annals ∧ p.Sound r ∧ p.LiesIn s.files) ∧ parts.Pairwise Record.Newer := by
  have hadmits := hi.orderly.admits _ (mem_parties hjob)
  obtain ⟨newer, older, hlisted⟩ : job.members <:+: listed.map Record.component :=
    hadmits.infix_listed htracked fun _ hc => hheld.symm ▸ hc
  obtain ⟨front, parts, back, hsplit, -, hparts, -, hrecords, hnewer⟩ :=
    hi.exists_stretch hlisted.symm
  exact ⟨front, parts, back, hsplit, hparts, hrecords, hnewer⟩

/-- What a merge reads is the newest of its members. -/
theorem gathers (hi : Intact r s h listed known) {job : Job} {range : Range} {tuples : List Tuple}
    (hjob : job ∈ s.pool.jobs) (hphase : job.phase = .read) (hrange : job.range? = some range)
    (hmerged : s.merged job.members = .ok tuples) : r.Gathers h.annals job.members tuples := by
  obtain ⟨members, phase⟩ := job
  obtain rfl : phase = .read := hphase
  obtain ⟨front, parts, back, -, hparts, hrecords, hnewer⟩ :=
    hi.exists_parts hjob List.mem_cons_self rfl
  dsimp only at hparts hmerged
  subst hparts
  have hspan : Range.span (parts.map fun a => a.component.range) = some range := by
    rw [← hrange, Job.range?, List.map_map]
    rfl
  have hne : parts ≠ [] := by
    rintro rfl
    simp [Range.span] at hspan
  obtain ⟨read, hread, hadmits, hyields⟩ :=
    merged_spec hi.format (fun p hp => (hrecords p hp).2) hne
  obtain rfl := Except.ok.inj (hread.symm.trans hmerged)
  exact ⟨hadmits, parts, range, fun p hp => (hrecords p hp).1, rfl, hnewer, hspan, hyields⟩

/-- A merge goes on with what is true. -/
theorem sound_of_carries (hi : Intact r s h listed known) {job job' : Job}
    (hjob : job ∈ s.pool.jobs) (hcarries : s.Carries job job') :
    job'.Sound r h.annals ∧ job'.Fresh h.annals := by
  cases hcarries with
  | read hphase hrange hmerged =>
    have hgathers := hi.gathers hjob hphase hrange hmerged
    exact ⟨hgathers, fun _ _ heq => nomatch heq⟩
  | number hphase =>
    have hsound := (hi.jobs job hjob).1
    obtain ⟨members, phase⟩ := job
    obtain rfl : phase = _ := hphase
    refine ⟨hsound, fun serial tuples heq a ha => ?_⟩
    obtain ⟨rfl, -⟩ := Job.Phase.build.inj heq
    exact Nat.ne_of_lt (hi.low a ha).1

/-- A merge takes a step that lists nothing and writes no component file. -/
theorem quietWork (hi : Intact r s h listed known) {i : Nat} {job : Job} {phase : Job.Phase}
    {new : List Job} (hjob : s.pool.jobOf? i = some job) (hswap : ∀ c, job.phase ≠ .swap c)
    (hmerges : s.Merges job t phase new) (hquiet : s.Quiet t)
    (hretired : ∀ c ∈ t.retired, c ∈ s.retired ∨ c ∈ job.party.leaving)
    (hplain : Job.Plain { job with phase } ∨ s.Carries job { job with phase }) (hroom : t.Roomy) :
    Intact r { t with pool := t.pool.setWorker i (workerOf { job with phase }) } h listed
      known := by
  obtain ⟨others, hothers⟩ := Pool.exists_jobs_perm hjob
  have hmem : job ∈ s.pool.jobs := hothers.mem_iff.2 List.mem_cons_self
  have horderly := hi.orderly.perm (parties_perm_worker hothers)
  have hafter := orderly_merges hi.lists horderly hswap hmerges
  have hsubmits : s.Submits t := hafter.submits
  have hbuilt : ∀ c, phase ≠ .swap c := by
    rintro c rfl
    rcases hplain with hplain | hcarries
    · exact hplain
    · generalize hafter' : ({ job with phase := .swap c } : Job) = job' at hcarries
      cases hcarries <;> simp at hafter'
  have hsame : t.files.Sorted ∧ ∀ name, FileName.isComponent name = true →
      t.files.find? name = s.files.find? name := by
    refine ⟨?_, fun name => find?_of_drafted hquiet.files⟩
    rcases hquiet.files with heq | ⟨name, file, heq⟩
    · exact heq ▸ hi.sorted
    · exact heq ▸ Directory.sorted_write hi.sorted _ _
  refine hi.frame hquiet.format hquiet.roster hquiet.memory hquiet.serial
    (Nat.le_of_eq hquiet.stamp.symm) ⟨hroom.stamps, hroom.serials, hroom.files⟩
    (orderly_worker hjob hothers hquiet.clients hafter) hsame.1 ?_ ?_ ?_ ?_ ?_ ?_
  · intro name file hname hfile
    rwa [← hsame.2 name hname]
  · intro a ha hplace
    exact (hsame.2 a.name (FileName.isComponent_ofComponent ..)).trans (hi.stored a ha hplace)
  · intro c
    rw [pends_work hjob hothers hsubmits { job with phase } c, pends_iff hothers c]
    simp [hswap c, hbuilt c]
  · exact forall_jobs_work hjob hothers hsubmits (fun _ => sound_of_read)
      (fun j hj => hi.jobs j (hothers.mem_iff.2 (List.mem_cons_of_mem _ hj)))
      (hplain.elim Job.sound_of_plain (hi.sound_of_carries hmem))
  · intro task htask
    have hbefore : task ∈ t.clients := htask
    rw [hquiet.clients] at hbefore
    exact hi.tasks task hbefore
  · intro c hc
    rcases hretired c hc with hold | hleaving
    · exact hi.retired c hold
    · obtain ⟨hknown, hout, -⟩ := (horderly.admits _ List.mem_cons_self).leaving c hleaving
      exact ⟨hknown, hout⟩

/-- The range of what a merge makes is in order, and within that of all flushes. -/
theorem range_of_makes (hi : Intact r s h listed known) {parts : List Record} {range : Range}
    {tuples : List Tuple} (hparts : ∀ p ∈ parts, p ∈ h.annals)
    (hmakes : r.Makes parts range tuples) :
    parts ≠ [] ∧ range.min ≤ range.max ∧ range.max < s.nextStamp := by
  refine ⟨fun hnil => (Range.span_spec hmakes.span).1 (by rw [hnil, List.map_nil]),
    Range.bounds_of_span hmakes.span (List.forall_mem_map.2 fun p hp => ?_)⟩
  have hmem := hparts p hp
  exact ⟨(hi.annals.sound p hmem).file.ordered, (hi.low p hmem).2⟩

/-- A merge writes its result, which waits to be put in place. -/
theorem builtWork (hi : Intact r s h listed known) {i : Nat} {members : List Component}
    {serial : Nat} {tuples : List Tuple} {job' : Job} {result : Component}
    (hjob : s.pool.jobOf? i = some ⟨members, .build serial tuples⟩)
    (hstep : s.stepJob ⟨members, .build serial tuples⟩ = some (t, job'))
    (hphase : job'.phase = .swap result) (hroom : t.Roomy) :
    Intact r { t with pool := t.pool.setWorker i (workerOf job') }
      { h with annals := .ofFiles t.files result tuples members :: h.annals } listed known := by
  obtain ⟨others, hothers⟩ := Pool.exists_jobs_perm hjob
  have hmem : Job.mk members (.build serial tuples) ∈ s.pool.jobs :=
    hothers.mem_iff.2 List.mem_cons_self
  have horderly := hi.orderly.perm (parties_perm_worker hothers)
  have hafter := orderly_stepJob hi.lists horderly (fun _ => by simp) hstep
  have hlow : serial < s.nextSerial := taken hi.orderly hmem rfl
  have hnew : ∀ a ∈ h.annals, a.component.serial ≠ serial := (hi.jobs _ hmem).2 serial tuples rfl
  obtain ⟨hadmits, parts, range, hparts, hmembers, hmakes⟩ := (hi.jobs _ hmem).1
  obtain ⟨hne, hordered, hmax⟩ := hi.range_of_makes hparts hmakes
  have hrange : Job.range? ⟨members, .build serial tuples⟩ = some range := by
    rw [Job.range?, ← hmembers, List.map_map]
    exact hmakes.span
  simp only [stepJob, hrange] at hstep
  split at hstep
  · rename_i files e _
    obtain ⟨rfl, rfl⟩ := Prod.mk.inj (Option.some.inj hstep)
    cases e <;> contradiction
  · rename_i files c hbuild
    obtain ⟨rfl, rfl⟩ := Prod.mk.inj (Option.some.inj hstep)
    obtain rfl := Job.Phase.swap.inj hphase
    have hsubmits : s.Submits { s with files } := .inl rfl
    rw [← hi.format] at hadmits
    obtain ⟨rfl, rfl, file, hfile, hfiles⟩ := Directory.build_eq_ok hbuild hadmits hordered
      (Nat.lt_trans hmax hi.stamps) (hroom.size_lt hbuild)
    rw [hi.format] at hadmits hfile
    rw [Record.ofFiles_built hfiles]
    obtain ⟨hsorted, hwritten, hself, hrest⟩ := hi.built (a := ⟨c, file, tuples, members⟩) hfiles
      hnew (Nat.lt_trans hlow hi.serials)
    have hmore : ∀ a ∈ h.annals, a ∈ Record.mk c file tuples members :: h.annals :=
      fun a ha => List.mem_cons_of_mem _ ha
    have hpends := pends_work hjob hothers hsubmits ⟨members, .swap c⟩
    exact {
      format := hi.format
      keyFields := hi.keyFields
      annals := hi.annals.cons ⟨hfile, hadmits⟩ hnew fun _ => ⟨parts, hparts, hmembers, hmakes⟩
      lists := hi.lists
      orderly := orderly_worker hjob hothers rfl hafter
      serials := hroom.serials
      stamps := hroom.stamps
      low := List.forall_mem_cons.2 ⟨⟨hlow, hmax⟩, hi.low⟩
      listedIn := fun a ha => hmore a (hi.listedIn a ha)
      knownIn := fun known hknown => by
        obtain ⟨a, ha, heq⟩ := hi.knownIn known hknown
        exact ⟨a, hmore a ha, heq⟩
      sorted := hsorted
      written := hwritten
      stored := by
        refine List.forall_mem_cons.2 ⟨fun _ => hself, fun a ha hplace => ?_⟩
        refine hrest a ha (hi.stored a ha (hplace.imp id fun hwaits => ?_))
        rcases (hpends a.component).1 hwaits with hresult | hother
        · exact absurd (congrArg Component.serial (Job.Phase.swap.inj hresult)).symm (hnew a ha)
        · exact (pends_iff hothers _).2 (.inr hother)
      line := by
        refine List.forall_mem_cons.2 ⟨⟨_, List.mem_cons_self, .inr ?_, .refl⟩, fun a ha => ?_⟩
        · exact (hpends c).2 (.inl rfl)
        · obtain ⟨top, htop, hplace, hline⟩ := hi.line a ha
          refine ⟨top, hmore top htop, hplace.imp id fun hwaits => ?_, Record.line_mono hmore hline⟩
          refine (hpends _).2 (.inr (((pends_iff hothers _).1 hwaits).resolve_left ?_))
          simp
      newer := hi.newer
      durable := hi.durable
      memory := hi.memory
      pending := hi.pending
      jobs := by
        refine forall_jobs_work hjob hothers hsubmits (fun _ => sound_of_read) (fun j hj => ?_) ?_
        · obtain ⟨hsound, hfresh⟩ := hi.jobs j (hothers.mem_iff.2 (List.mem_cons_of_mem _ hj))
          refine ⟨hsound.mono hmore, fun serial' tuples' heq => ?_⟩
          refine List.forall_mem_cons.2 ⟨?_, hfresh serial' tuples' heq⟩
          exact serial_ne_of_others hi.orderly hothers hj heq
        · refine ⟨⟨?_, _, List.mem_cons_self, rfl, rfl⟩, fun _ _ heq => ?_⟩
          · rw [← hmembers, ne_eq, List.map_eq_nil_iff]
            exact hne
          · contradiction
      tasks := hi.tasks
      retired := hi.retired }

/-- Ranges stay in order where a merge of some that stand together has taken their place. -/
theorem newer_replace {front parts back : List Record} {a : Record}
    (hnewer : (front ++ parts ++ back).Pairwise Record.Newer)
    (hmakes : r.Makes parts a.component.range a.tuples) :
    (front ++ [a] ++ back).Pairwise Record.Newer := by
  have hcomponents : ∀ records : List Record, records.Pairwise Record.Newer ↔
      (records.map Record.component).Pairwise Component.Newer := fun records => by
    rw [List.pairwise_map]
    rfl
  have hspan : Range.span ((parts.map Record.component).map Component.range) =
      some a.component.range := by
    rw [List.map_map]
    exact hmakes.span
  simp only [hcomponents, List.map_append] at hnewer ⊢
  exact Component.newer_replace hnewer hspan

/-- A record was made of the records that are its members. -/
theorem makes_of_members (hi : Intact r s h listed known) {a : Record} (ha : a ∈ h.annals)
    (hmembers : a.members ≠ []) {parts : List Record} (hannals : ∀ p ∈ parts, p ∈ h.annals)
    (hparts : parts.map Record.component = a.members) :
    r.Makes parts a.component.range a.tuples := by
  obtain ⟨others, hothers, hcomponents, hmakes⟩ := hi.annals.made a ha hmembers
  rw [← hparts] at hcomponents
  rwa [← hi.annals.eq_of_map_eq hothers hannals hcomponents]

/-- What went into a record that was listed, or waited, goes into one that is listed or waits once
the result of a merge is in the place of its members. -/
theorem exists_line_replace (hi : Intact r s h listed known) {front parts back : List Record}
    {a : Record} (ha : a ∈ h.annals) (hparts : parts.map Record.component = a.members)
    (hpends : ∀ c, s.Pends c → c = a.component ∨ t.Pends c) {top : Record} (htop : top ∈ h.annals)
    (hplace : top ∈ front ++ parts ++ back ∨ s.Pends top.component) :
    ∃ top' ∈ h.annals, (top' ∈ front ++ [a] ++ back ∨ t.Pends top'.component) ∧
      Relation.ReflTransGen (Record.Input h.annals) top top' := by
  rcases hplace with hin | hwaits
  · by_cases hpart : top ∈ parts
    · refine ⟨a, ha, .inl (by simp), .single ⟨htop, ha, ?_⟩⟩
      rw [← hparts]
      exact List.mem_map_of_mem hpart
    · exact ⟨top, htop, .inl (mem_replace_of_not_mem a hin hpart), .refl⟩
  · rcases hpends _ hwaits with hresult | hother
    · obtain rfl : top = a :=
        hi.annals.eq_of_serial_eq htop ha (congrArg Component.serial hresult)
      exact ⟨top, htop, .inl (by simp), .refl⟩
    · exact ⟨top, htop, .inr hother, .refl⟩

/-- The result of a merge is put in place, and nothing of what is found changes. -/
theorem swapWork (hi : Intact r s h listed known) {i : Nat} {members : List Component}
    {result : Component} (hjob : s.pool.jobOf? i = some ⟨members, .swap result⟩) :
    ∃ front parts back a roster, listed = front ++ parts ++ back ∧ a ∈ h.annals ∧
      a.component = result ∧ a.members = parts.map Record.component ∧
      s.stepJob ⟨members, .swap result⟩ =
        some ({ s with board := { s.board with roster } }, ⟨members, .retire result members⟩) ∧
      Intact r
        { s with
          board := { s.board with roster }
          pool := s.pool.setWorker i (.busy ⟨members, .retire result members⟩) }
        h (front ++ [a] ++ back) (result :: known) := by
  obtain ⟨others, hothers⟩ := Pool.exists_jobs_perm hjob
  have hmem : Job.mk members (.swap result) ∈ s.pool.jobs :=
    hothers.mem_iff.2 List.mem_cons_self
  have horderly := hi.orderly.perm (parties_perm_worker hothers)
  obtain ⟨hmembers, a, ha, rfl, rfl⟩ := (hi.jobs _ hmem).1
  obtain ⟨newer, older, roster, hlisted, hstep, hlists, hafter⟩ :=
    orderly_swap hi.lists horderly hmembers (Nat.le_of_lt hi.serials)
  obtain ⟨front, parts, back, rfl, rfl, hparts, rfl, hrecords, -⟩ := hi.exists_stretch hlisted
  have hannals : ∀ p ∈ parts, p ∈ h.annals := fun p hp => (hrecords p hp).1
  have hmakes := hi.makes_of_members ha hmembers hannals hparts
  have hunknown : ∀ c ∈ known, c.serial ≠ a.component.serial :=
    ((horderly.admits _ List.mem_cons_self).making _ List.mem_cons_self).2
  refine ⟨front, parts, back, a, roster, rfl, ha, rfl, hparts.symm, hstep, ?_⟩
  have hmap : (front ++ [a] ++ back).map Record.component =
      front.map Record.component ++ [a.component] ++ back.map Record.component := by simp
  have hsubmits : s.Submits { s with board := { s.board with roster } } := .inl rfl
  have hpends := pends_work hjob hothers hsubmits ⟨a.members, .retire a.component a.members⟩
  have hstays : ∀ b ∈ front ++ [a] ++ back, b = a ∨ b ∈ front ++ parts ++ back :=
    fun b => mem_of_mem_replace parts
  have hwaits : ∀ c, s.Pends c → c = a.component ∨ Pends
      { s with
        board := { s.board with roster }
        pool := s.pool.setWorker i (.busy ⟨a.members, .retire a.component a.members⟩) } c := by
    intro c hc
    exact ((pends_iff hothers c).1 hc).imp (fun hresult => (Job.Phase.swap.inj hresult).symm)
      fun hother => (hpends c).2 (.inr hother)
  rw [← hmap] at hlists hafter
  have hparties : OrderlyAfter s { s with board := { s.board with roster } }
      ((front ++ [a] ++ back).map Record.component) (a.component :: known)
      (Job.party ⟨a.members, .retire a.component a.members⟩)
      (others.map Job.party ++ s.clients.map Task.party) := .inl ⟨rfl, hafter⟩
  have hplain : (Job.mk a.members (.retire a.component a.members)).Sound r h.annals ∧
      (Job.mk a.members (.retire a.component a.members)).Fresh h.annals :=
    Job.sound_of_plain trivial
  exact {
    format := hi.format
    keyFields := hi.keyFields
    annals := hi.annals
    lists := hlists
    orderly := orderly_worker hjob hothers rfl hparties
    serials := hi.serials
    stamps := hi.stamps
    low := hi.low
    listedIn := fun b hb => by
      rcases hstays b hb with rfl | hold
      · exact ha
      · exact hi.listedIn b hold
    knownIn := List.forall_mem_cons.2 ⟨⟨a, ha, rfl⟩, hi.knownIn⟩
    sorted := hi.sorted
    written := hi.written
    stored := fun b hb hplace => by
      refine hi.stored b hb ?_
      rcases hplace with hin | hwaits
      · rcases hstays b hin with rfl | hold
        · exact .inr ((pends_iff hothers _).2 (.inl rfl))
        · exact .inl hold
      · refine .inr ((pends_iff hothers _).2 (.inr (((hpends _).1 hwaits).resolve_left ?_)))
        simp
    line := fun b hb => by
      obtain ⟨top, htop, hplace, hline⟩ := hi.line b hb
      obtain ⟨top', htop', hplace', hline'⟩ := hi.exists_line_replace ha hparts hwaits htop hplace
      exact ⟨top', htop', hplace', hline.trans hline'⟩
    newer := newer_replace hi.newer hmakes
    durable := fun key => by rw [Reading.newest_replace hmakes.yields, hi.durable]
    memory := hi.memory
    pending := hi.pending
    jobs := forall_jobs_work hjob hothers hsubmits (fun _ => sound_of_read)
      (fun j hj => hi.jobs j (hothers.mem_iff.2 (List.mem_cons_of_mem _ hj))) hplain
    tasks := hi.tasks
    retired := fun c hc => by
      obtain ⟨hknown, hout⟩ := hi.retired c hc
      refine ⟨List.mem_cons_of_mem _ hknown, fun hin => ?_⟩
      obtain ⟨b, hb, rfl⟩ := List.mem_map.1 hin
      rcases hstays b hb with rfl | hold
      · exact hunknown _ hknown rfl
      · exact hout (List.mem_map_of_mem hold) }

/-- All stays intact when a merge takes a step. -/
theorem work (hi : Intact r s h listed known) {i : Nat} (hstep : s.work i = some t)
    (hroom : t.Roomy) :
    ∃ listed' known', Intact r t (h.after s t (.action (.work i))) listed' known' := by
  obtain ⟨job, s', job', hjob, hrun, rfl⟩ := work_eq_some_iff.1 hstep
  have hroom' : s'.Roomy := ⟨hroom.stamps, hroom.serials, hroom.files⟩
  obtain ⟨phase, new, rfl, hmerges⟩ := merges_of_stepJob hrun
  rw [h.after_of_merge _ rfl (@mergeStep?_eq s s' (.action (.work i)) i job phase hstep rfl hjob
    (workers_merges hmerges))]
  by_cases hswap : ∃ result, job.phase = .swap result
  · obtain ⟨members, before⟩ := job
    obtain ⟨result, rfl⟩ := hswap
    obtain ⟨front, parts, back, a, roster, -, -, -, -, hrun', hi'⟩ := hi.swapWork hjob
    obtain ⟨rfl, heq⟩ := Prod.mk.inj (Option.some.inj (hrun'.symm.trans hrun))
    obtain ⟨-, rfl⟩ := Job.mk.inj heq
    exact ⟨_, _, hi'⟩
  by_cases hbuilt : ∃ serial tuples result,
      job.phase = .build serial tuples ∧ phase = .swap result
  · obtain ⟨serial, tuples, result, hbefore, rfl⟩ := hbuilt
    obtain ⟨members, before⟩ := job
    obtain rfl : before = _ := hbefore
    exact ⟨_, _, hi.builtWork hjob hrun rfl hroom'⟩
  · have hnone : ∀ serial tuples result, job.phase = .build serial tuples → phase ≠ .swap result :=
      fun serial tuples result hbefore heq => hbuilt ⟨serial, tuples, result, hbefore, heq⟩
    have hother : ∀ c, job.phase ≠ .swap c := fun c heq => hswap ⟨c, heq⟩
    obtain ⟨hquiet, hretired, hplain⟩ := quiet_stepJob hother hnone hrun
    rw [h.merged_of_not_built _ hnone]
    exact ⟨_, _, hi.quietWork hjob hother hmerges hquiet hretired hplain hroom'⟩

/-- All stays intact when a merge fails as it reads or writes. -/
theorem failMerge (hi : Intact r s h listed known) {i : Nat} {f : Failure}
    (hfail : s.failMerge i f = some t) (hroom : t.Roomy) :
    ∃ listed' known', Intact r t (h.after s t (.failMerge i f)) listed' known' := by
  obtain ⟨job, hjob, huses, hmerges, rfl⟩ := merges_of_failMerge hfail
  have hother : ∀ c, job.phase ≠ .swap c := by
    intro c heq
    simp [Job.usesFiles, heq] at huses
  have hquiet : s.Quiet s := ⟨rfl, rfl, rfl, rfl, Nat.le_refl _, rfl, .inl rfl⟩
  rw [h.after_of_merge _ rfl (@mergeStep?_eq s s (.failMerge i f) i job _ hfail rfl hjob rfl),
    h.merged_of_not_built _ fun _ _ _ _ => by cases f <;> exact nofun]
  exact ⟨_, _, hi.quietWork hjob hother hmerges hquiet (fun c hc => .inl hc)
    (.inl (Job.plain_phaseOf _ f)) ⟨hroom.stamps, hroom.serials, hroom.files⟩⟩

/-- All stays intact whatever happens next. -/
theorem turn (hi : Intact r s h listed known) {τ : Turn} (hpermits : s.Permits τ)
    (hturn : s.turn τ = some t) (hroom : t.Roomy) :
    ∃ listed' known', Intact r t (h.after s t τ) listed' known' := by
  cases τ with
  | action a =>
    cases a with
    | call task =>
      obtain rfl := Option.some.inj hturn
      exact ⟨_, _, hi.call hpermits⟩
    | client i => exact hi.client hturn hroom
    | take i =>
      obtain ⟨pool, htake, rfl⟩ := Option.map_eq_some_iff.1 hturn
      exact ⟨_, _, hi.passOn (Pool.jobs_take htake)⟩
    | work i => exact hi.work hturn hroom
    | reap serial => exact ⟨_, _, hi.reap hturn hroom⟩
    | shutdown =>
      obtain rfl := Option.some.inj hturn
      exact ⟨_, _, hi.passOn (List.Perm.of_eq Pool.jobs_shutdown)⟩
  | files d =>
    obtain rfl := Option.some.inj hturn
    obtain ⟨hsorted, hsame⟩ := hpermits.files d rfl
    exact ⟨_, _, hi.refiled hsorted hsame (Nat.le_refl _) (Nat.le_refl _) hroom⟩
  | failMerge i f => exact hi.failMerge hturn hroom
  | failFlush i f => exact hi.failFlush hturn hroom

end Intact

end Store

end Strata
