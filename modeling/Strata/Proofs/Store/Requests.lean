import Strata.Proofs.Store.Turns

/-!
# Requests for a merge of all components

A request is a flag. The scheduling of a merge of all components takes it back and renews it where
nothing is submitted, so a request is pursued until a merge of all components that were listed at
some moment since has come to an end. What the end of such a merge leaves depends on how it ends: a
merge that has failed and is to be tried again hands its members back without renewing the request,
so the policy is called with whatever the flag is then, and unless somebody else has asked, the
request is lost.
-/

namespace Strata

/-- Whether scheduling pursues a request: it has taken the request back, and what it is to merge is
all of a list of components as `listed` tells. -/
def Scheduling.Pursues (listed : List Component → Prop) : Scheduling → Prop
  | .gather => True
  | .claim all claimed rest => all = true ∧ listed (claimed ++ rest)
  | .giveUp all _ => all = true
  | .enlist all members => all = true ∧ listed members
  | .submit all members => all = true ∧ listed members
  | .withdraw all _ _ => all = true
  | .handBack all _ _ => all = true
  | .restore _ => True
  | _ => False

/-- Whether a call of the policy is scheduling a merge that pursues a request. -/
def Consultation.Pursues (listed : List Component → Prop) : Consultation → Prop
  | .scheduling _ phase => phase.Pursues listed
  | .thinking _ => False

/-- Whether a merge has neither succeeded nor failed. -/
def Job.isUndecided (job : Job) : Bool :=
  match job.phase with
  | .read => true
  | .number _ => true
  | .build .. => true
  | .swap _ => true
  | .retire .. => true
  | .succeed _ => true
  | .fail _ => true
  | _ => false

/-- Whether a thread pursues a request: it schedules a merge of all components, or is such a merge
and not decided. -/
def Thread.Pursues (listed : List Component → Prop) : Thread → Prop
  | .call task => ∃ k, task = .consult k ∧ k.Pursues listed
  | .merge job =>
    job.isUndecided = true ∧ listed job.members ∨ ∃ k, job.phase = .consult k ∧ k.Pursues listed

/-- How a merge comes to an end in a step: it succeeds, fails and is parked, fails and hands its
members back, or is broken off. -/
inductive Job.Ends (job : Job) : Job.Phase → Prop where
  | succeeds {result : Component} {phase : Job.Phase} (h : job.phase = .succeed result) :
      Ends job phase
  | parks {e : Error} (h : job.phase = .fail e) : Ends job .land
  | handsBack {e : Error} (h : job.phase = .fail e) : Ends job (.release job.members)
  | breaks : Ends job .lost

theorem Scheduling.pursues_conclude {listed : List Component → Prop} {all : Bool}
    {answer : Except Error Bool} (hall : all = true) (hanswer : answer ≠ .ok true) :
    (conclude all answer).Pursues listed := by
  subst hall
  cases answer with
  | error e => trivial
  | ok scheduled =>
    cases scheduled with
    | false => trivial
    | true => exact absurd rfl hanswer

theorem Scheduling.Pursues.mono {listed more : List Component → Prop}
    (hmore : ∀ members, listed members → more members) {phase : Scheduling}
    (h : phase.Pursues listed) : phase.Pursues more := by
  cases phase with
  | claim => exact ⟨h.1, hmore _ h.2⟩
  | enlist => exact ⟨h.1, hmore _ h.2⟩
  | submit => exact ⟨h.1, hmore _ h.2⟩
  | _ => exact h

theorem Consultation.Pursues.mono {listed more : List Component → Prop}
    (hmore : ∀ members, listed members → more members) {k : Consultation}
    (h : k.Pursues listed) : k.Pursues more := by
  cases k with
  | thinking call => exact h
  | scheduling call phase => exact Scheduling.Pursues.mono hmore h

theorem Thread.Pursues.mono {listed more : List Component → Prop}
    (hmore : ∀ members, listed members → more members) {thread : Thread}
    (h : thread.Pursues listed) : thread.Pursues more := by
  cases thread with
  | call task => exact h.imp fun k hk => ⟨hk.1, hk.2.mono hmore⟩
  | merge job =>
    rcases h with ⟨hundecided, hin⟩ | ⟨k, hconsult, hk⟩
    · exact .inl ⟨hundecided, hmore _ hin⟩
    · exact .inr ⟨k, hconsult, hk.mono hmore⟩

namespace Store

variable {s s' t u : Store} {listed : List Component → Prop}

/-- A request is pursued: the flag is set, or some thread pursues it. -/
def Pursues (s : Store) (listed : List Component → Prop) : Prop :=
  s.fullRequested = true ∨ ∃ thread ∈ s.threads, thread.Pursues listed

/-- Only the scheduling of a merge of all components takes a request back. -/
theorem fullRequested_schedules {phase phase' : Scheduling} {new : List Job}
    (h : s.Schedules phase s' phase' new) (hflag : s.fullRequested = true) :
    s'.fullRequested = true ∨ phase'.Pursues listed := by
  cases h with
  | clear => exact .inr trivial
  | restore => exact .inl rfl
  | _ => exact .inl hflag

theorem fullRequested_consults {k k' : Consultation} {new : List Job}
    (h : s.Consults k s' k' new) (hflag : s.fullRequested = true) :
    s'.fullRequested = true ∨ k'.Pursues listed := by
  cases h with
  | schedule hphase hstep => exact fullRequested_schedules hstep hflag
  | _ => exact .inl hflag

theorem fullRequested_acts {thread thread' : Thread} {new : List Job}
    (h : s.Acts thread s' thread' new) (hflag : s.fullRequested = true) :
    s'.fullRequested = true ∨ thread'.Pursues listed := by
  cases h with
  | call hcalls =>
    cases hcalls with
    | request => exact .inl rfl
    | consult hstep =>
      exact (fullRequested_consults hstep hflag).imp id fun hk => ⟨_, rfl, hk⟩
    | _ => exact .inl hflag
  | merge hmerges =>
    cases hmerges with
    | consult hstep =>
      exact (fullRequested_consults hstep hflag).imp id fun hk => .inr ⟨_, rfl, hk⟩
    | _ => exact .inl hflag

/-- Scheduling that pursues a request goes on to pursue it, renews it, or submits a merge that does.
-/
theorem pursues_schedules {phase phase' : Scheduling} {new : List Job}
    (hlisted : listed s.board.roster.newestFirst) (h : s.Schedules phase s' phase' new)
    (hphase : phase.Pursues listed) :
    s'.fullRequested = true ∨ phase'.Pursues listed ∨
      ∃ job ∈ new, (Thread.merge job).Pursues listed := by
  cases h with
  | clear => exact hphase.elim
  | gather => exact .inr (.inl ⟨rfl, hlisted⟩)
  | claimNone => exact .inr (.inl (Scheduling.pursues_conclude hphase.1 (by simp)))
  | claimedAll hmembers =>
    obtain ⟨hall, hin⟩ := hphase
    rw [List.append_nil] at hin
    exact .inr (.inl ⟨hall, hin⟩)
  | claim hstate =>
    rename_i claimed rest c
    obtain ⟨hall, hin⟩ := hphase
    refine .inr (.inl ⟨hall, ?_⟩)
    rwa [List.append_assoc, List.singleton_append]
  | claimLost hstate => exact .inr (.inl hphase.1)
  | gaveUp => exact .inr (.inl (Scheduling.pursues_conclude hphase (by simp)))
  | giveUp hstate => exact .inr (.inl hphase)
  | giveUpLost hstate => exact .inr (.inl (Scheduling.pursues_conclude hphase (by simp)))
  | enlist => exact .inr (.inl hphase)
  | submit hpool =>
    exact .inr (.inr ⟨_, List.mem_singleton_self _, .inl ⟨rfl, hphase.2⟩⟩)
  | refuse => exact .inr (.inl hphase.1)
  | withdraw => exact .inr (.inl hphase)
  | handedBack => exact .inr (.inl (Scheduling.pursues_conclude hphase (by simp)))
  | handBack hstate => exact .inr (.inl hphase)
  | handBackLost hstate => exact .inr (.inl (Scheduling.pursues_conclude hphase (by simp)))
  | restore => exact .inl rfl

theorem pursues_consults {k k' : Consultation} {new : List Job}
    (hlisted : listed s.board.roster.newestFirst) (h : s.Consults k s' k' new)
    (hk : k.Pursues listed) :
    s'.fullRequested = true ∨ k'.Pursues listed ∨
      ∃ job ∈ new, (Thread.merge job).Pursues listed := by
  cases h with
  | think hstep => exact hk.elim
  | order horder => exact hk.elim
  | schedule hphase hstep => exact pursues_schedules hlisted hstep hk
  | reply => exact hk.elim

theorem not_pursues_of_answer? {k : Consultation} {answer : Except Error Unit}
    (h : k.answer? = some answer) : ¬ k.Pursues listed := by
  cases k with
  | thinking call => exact id
  | scheduling call phase => simp [Consultation.answer?] at h

/-- A merge that pursues a request goes on to do so until it ends. -/
theorem pursues_merges {job : Job} {phase : Job.Phase} {new : List Job}
    (hlisted : listed s.board.roster.newestFirst) (h : s.Merges job s' phase new)
    (hjob : (Thread.merge job).Pursues listed) :
    s'.fullRequested = true ∨ (Thread.merge { job with phase }).Pursues listed ∨
      (∃ job ∈ new, (Thread.merge job).Pursues listed) ∨
      listed job.members ∧ job.Ends phase ∧ s'.fullRequested = s.fullRequested := by
  have hfails : ∀ {members : List Component} (before : Job.Phase) (f : Failure), listed members →
      s'.fullRequested = s.fullRequested →
      s'.fullRequested = true ∨ (Thread.merge ⟨members, Job.phaseOf f⟩).Pursues listed ∨
        (∃ job ∈ ([] : List Job), (Thread.merge job).Pursues listed) ∨
        listed members ∧ Job.Ends ⟨members, before⟩ (Job.phaseOf f) ∧
          s'.fullRequested = s.fullRequested := by
    intro members before f hin hsame
    cases f with
    | error e => exact .inr (.inl (.inl ⟨rfl, hin⟩))
    | breach => exact .inr (.inr (.inr ⟨hin, .breaks, hsame⟩))
  rcases hjob with ⟨hundecided, hin⟩ | ⟨k, hconsult, hk⟩
  · cases h with
    | readFails => exact hfails _ _ hin rfl
    | buildFails => exact hfails _ _ hin rfl
    | succeed => exact .inr (.inr (.inr ⟨hin, .succeeds rfl, rfl⟩))
    | failRetry hretry => exact .inr (.inr (.inr ⟨hin, .handsBack rfl, rfl⟩))
    | failPark hpark => exact .inr (.inr (.inr ⟨hin, .parks rfl, rfl⟩))
    | read => exact .inr (.inl (.inl ⟨rfl, hin⟩))
    | number => exact .inr (.inl (.inl ⟨rfl, hin⟩))
    | build hrange hbuild => exact .inr (.inl (.inl ⟨rfl, hin⟩))
    | swapFails hreplace => exact .inr (.inl (.inl ⟨rfl, hin⟩))
    | swap hreplace => exact .inr (.inl (.inl ⟨rfl, hin⟩))
    | retired => exact .inr (.inl (.inl ⟨rfl, hin⟩))
    | retire hstate => exact .inr (.inl (.inl ⟨rfl, hin⟩))
    | retireLost hstate => exact .inr (.inl (.inl ⟨rfl, hin⟩))
    | _ => simp [Job.isUndecided] at hundecided
  · cases h with
    | consulted hanswer =>
      obtain rfl := Job.Phase.consult.inj hconsult
      exact absurd hk (not_pursues_of_answer? hanswer)
    | consult hstep =>
      obtain rfl := Job.Phase.consult.inj hconsult
      rcases pursues_consults hlisted hstep hk with hflag | hk' | hnew
      · exact .inl hflag
      · exact .inr (.inl (.inr ⟨_, rfl, hk'⟩))
      · exact .inr (.inr (.inl hnew))
    | _ => contradiction

theorem pursues_calls {task task' : Task} {new : List Job}
    (hlisted : listed s.board.roster.newestFirst) (h : s.Calls task s' task' new)
    (htask : (Thread.call task).Pursues listed) :
    s'.fullRequested = true ∨ (Thread.call task').Pursues listed ∨
      ∃ job ∈ new, (Thread.merge job).Pursues listed := by
  obtain ⟨k, rfl, hk⟩ := htask
  cases h with
  | consulted hanswer => exact absurd hk (not_pursues_of_answer? hanswer)
  | consult hstep =>
    rcases pursues_consults hlisted hstep hk with hflag | hk' | hnew
    · exact .inl hflag
    · exact .inr (.inl ⟨_, rfl, hk'⟩)
    · exact .inr (.inr hnew)

/-- A merge that is over or broken off pursues nothing. -/
theorem remains_of_pursues {thread : Thread} (h : thread.Pursues listed) :
    thread ∈ thread.remains := by
  cases thread with
  | call task => exact List.mem_singleton_self _
  | merge job =>
    obtain ⟨members, phase⟩ := job
    cases phase with
    | «over» => simp [Thread.Pursues, Job.isUndecided] at h
    | lost => simp [Thread.Pursues, Job.isUndecided] at h
    | _ => exact List.mem_singleton_self _

/-- A request that is pursued goes on to be pursued, until a merge of all components listed at some
moment comes to an end. The flag is not touched then. -/
theorem pursues_turn {τ : Turn} (hlisted : listed s.board.roster.newestFirst)
    (h : s.Pursues listed) (hturn : s.turn τ = some t) :
    t.Pursues listed ∨ ∃ job phase, s.mergeStep? τ = some (job, phase) ∧ listed job.members ∧
      job.Ends phase ∧ t.fullRequested = s.fullRequested := by
  cases takes_of_turn hturn with
  | client hclient hworker htask hcalls hclients hbefore hafter =>
    refine .inl ?_
    have hthreads := hafter.symm.subset
    rcases h with hflag | ⟨thread, hthread, hpursues⟩
    · rcases fullRequested_acts (.call hcalls) hflag with hflag' | hpursues'
      · exact .inl hflag'
      · exact .inr ⟨_, hthreads List.mem_cons_self, hpursues'⟩
    · rcases List.mem_cons.1 (hbefore.mem_iff.1 hthread) with rfl | hother
      · rcases pursues_calls hlisted hcalls hpursues with hflag | hpursues' | ⟨job, hjob, hpursues'⟩
        · exact .inl hflag
        · exact .inr ⟨_, hthreads List.mem_cons_self, hpursues'⟩
        · exact .inr ⟨_, hthreads (List.mem_cons_of_mem _
            (List.mem_append_left _ (List.mem_map_of_mem hjob))), hpursues'⟩
      · exact .inr ⟨_, hthreads (List.mem_cons_of_mem _ (List.mem_append_right _ hother)),
          hpursues⟩
  | work hworker hclient hjob hmerges hworkers hclients hbefore hafter =>
    rw [mergeStep?_eq hturn hworker hjob hworkers]
    have hthreads := hafter.symm.subset
    rcases h with hflag | ⟨thread, hthread, hpursues⟩
    · rcases fullRequested_acts (.merge hmerges) hflag with hflag' | hpursues'
      · exact .inl (.inl hflag')
      · exact .inl (.inr ⟨_, hthreads (List.mem_append_left _ (remains_of_pursues hpursues')),
          hpursues'⟩)
    · rcases List.mem_cons.1 (hbefore.mem_iff.1 hthread) with rfl | hother
      · rcases pursues_merges hlisted hmerges hpursues with
          hflag | hpursues' | ⟨job, hjob, hpursues'⟩ | hends
        · exact .inl (.inl hflag)
        · exact .inl (.inr ⟨_, hthreads (List.mem_append_left _ (remains_of_pursues hpursues')),
            hpursues'⟩)
        · exact .inl (.inr ⟨_, hthreads (List.mem_append_right _
            (List.mem_append_left _ (List.mem_map_of_mem hjob))), hpursues'⟩)
        · exact .inr ⟨_, _, rfl, hends⟩
      · exact .inl (.inr ⟨_, hthreads (List.mem_append_right _ (List.mem_append_right _ hother)),
          hpursues⟩)
  | begin =>
    refine .inl (h.imp id fun ⟨thread, hthread, hpursues⟩ => ⟨thread, ?_, hpursues⟩)
    rw [threads, List.map_append, List.append_assoc]
    rcases List.mem_append.1 hthread with hcall | hmerge
    · exact List.mem_append_left _ hcall
    · exact List.mem_append_right _ (List.mem_append_right _ hmerge)
  | idle hclient hworker hjobs hqueue =>
    refine .inl (h.imp id fun ⟨thread, hthread, hpursues⟩ => ⟨thread, ?_, hpursues⟩)
    exact ((hjobs.map Thread.merge).append_left _).mem_iff.2 hthread

/-- Some components were all that were listed at some moment of a course. -/
def ListedDuring (s : Store) (turns : List Turn) (members : List Component) : Prop :=
  ∃ first u, first <+: turns ∧ s.course first = some u ∧ u.board.roster.newestFirst = members

/-- A request is pursued, as a flag, a scheduling or a merge submitted, until a merge of all
components that were listed at some moment comes to an end. Where this one failed and handed its
members back, the flag stays as it was, and the request is lost. -/
theorem full_merge_pursued {turns : List Turn} (hflag : s.fullRequested = true)
    (hcourse : s.course turns = some t) :
    t.Pursues (s.ListedDuring turns) ∨
      ∃ first τ rest u v job phase, turns = first ++ τ :: rest ∧ s.course first = some u ∧
        u.Pursues (s.ListedDuring first) ∧ u.turn τ = some v ∧
        u.mergeStep? τ = some (job, phase) ∧ s.ListedDuring first job.members ∧
        job.Ends phase ∧ v.fullRequested = u.fullRequested := by
  induction turns using List.reverseRecOn generalizing t with
  | nil =>
    obtain rfl := Option.some.inj hcourse
    exact .inl (.inl hflag)
  | append_singleton turns τ ih =>
    obtain ⟨u, hu, hturn⟩ := course_concat_eq_some_iff.1 hcourse
    rcases ih hu with hpursues | ⟨first, σ, rest, v, w, job, phase, rfl, hend⟩
    · have hlisted : s.ListedDuring turns u.board.roster.newestFirst :=
        ⟨turns, u, List.prefix_rfl, hu, rfl⟩
      rcases pursues_turn hlisted hpursues hturn with
        hflag' | ⟨job, phase, hstep, hin, hends, hsame⟩
      · refine .inl (hflag'.imp id fun ⟨thread, hthread, h⟩ => ⟨thread, hthread, h.mono ?_⟩)
        rintro members ⟨first, v, hfirst, hv, hmembers⟩
        exact ⟨first, v, hfirst.trans (List.prefix_append ..), hv, hmembers⟩
      · exact .inr ⟨turns, τ, [], u, t, job, phase, rfl, hu, hpursues, hturn, hstep, hin, hends,
          hsame⟩
    · refine .inr ⟨first, σ, rest ++ [τ], v, w, job, phase, ?_, hend⟩
      rw [List.append_assoc, List.cons_append]

/-- A merge of all is asked for and submitted, cannot read its members, and hands them back. Nobody
has asked anew, so in the end both components are readable, no merge is in flight, and nothing
pursues the request. -/
theorem request_lost_with_failed_merge :
    let small (stamp : Nat) : Component :=
      { serial := stamp, range := .single stamp, size := 80 }
    let asking : List Turn := [.action (.call .request), .action (.client 0)]
    let turns : List Turn := List.replicate 16 (.action (.client 0)) ++
      .action (.take 0) :: List.replicate 14 (.action (.work 0))
    ∃ o s t, ofComponents {} (.all 3) (.plain [.varying]) {} [small 1, small 0] = .ok o ∧
      o.course asking = some s ∧ s.fullRequested = true ∧ s.course turns = some t ∧
      (∃ first τ rest u v job phase, turns = first ++ τ :: rest ∧ s.course first = some u ∧
        u.Pursues (s.ListedDuring first) ∧ u.turn τ = some v ∧
        u.mergeStep? τ = some (job, phase) ∧ s.ListedDuring first job.members ∧
        job.Ends phase ∧ v.fullRequested = u.fullRequested) ∧
      ¬ t.Pursues (s.ListedDuring turns) ∧ t.inFlight = 0 ∧
      t.board.roster.newestFirst.map t.state = [.readable, .readable] := by
  intro small asking turns
  obtain ⟨o, hopen, hasked, hend⟩ : ∃ o,
      ofComponents {} (.all 3) (.plain [.varying]) {} [small 1, small 0] = .ok o ∧
      (o.course asking).map (·.fullRequested) = some true ∧
      (o.course (asking ++ turns)).map (fun t => (t.fullRequested, t.inFlight,
        t.clients.all (·.answer?.isSome), t.pool.jobs.isEmpty,
        t.board.roster.newestFirst.map t.state)) =
        some (false, 0, true, true, [.readable, .readable]) :=
    ⟨_, rfl, rfl, by decide +kernel⟩
  obtain ⟨s, hasking, hflag⟩ := Option.map_eq_some_iff.1 hasked
  rw [course_append, hasking, Option.bind_some] at hend
  obtain ⟨t, hturns, hend⟩ := Option.map_eq_some_iff.1 hend
  simp only [Prod.mk.injEq, List.all_eq_true, List.isEmpty_iff] at hend
  obtain ⟨hunset, hnone, hreturned, hjobs, hstates⟩ := hend
  have hlost : ¬ t.Pursues (s.ListedDuring turns) := by
    rintro (hset | ⟨thread, hthread, hpursues⟩)
    · exact absurd (hset.symm.trans hunset) (by decide)
    · rw [threads, hjobs, List.map_nil, List.append_nil] at hthread
      obtain ⟨task, htask, rfl⟩ := List.mem_map.1 hthread
      obtain ⟨k, rfl, -⟩ := hpursues
      exact absurd (hreturned _ htask) (by simp [Task.answer?])
  exact ⟨o, s, t, hopen, hasking, hflag, hturns,
    (full_merge_pursued hflag hturns).resolve_left hlost, hlost, hnone, hstates⟩

end Store

end Strata
