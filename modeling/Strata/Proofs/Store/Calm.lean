import Strata.Proofs.Store.Flight

/-!
# The last call of the policy leaves nothing to do

While one thread is at work and no merge fails, whoever looks through the states of the components
finds them all free, and whoever claims them gets them all. So a thread ceases to be at work only by
submitting a merge, or because the policy is content with the list there is. A flush adds one
component to such a list, which is one small component more than the policy would wait for at most;
so no client waits in a call of the policy.
-/

namespace Strata

/-- The policy would not merge any of the components listed. -/
def Situation.Content (v : Situation) : Prop := v.policy.Content v.roster.newestFirst

/-- A client that flushes does not have to wait. -/
def Situation.Eased (v : Situation) : Prop :=
  ∀ largest tolerance, v.policy = .runs largest tolerance →
    v.policy.Bears 0 v.roster.newestFirst

/-- A call of the policy that has not waited, and is not going to. -/
def Phase.Calm (policy : Policy) (listed : List Component) : Phase → Prop
  | .observe waited => waited = false ∧ policy.Bears 0 listed
  | .look waited _ => waited = false ∧ policy.Bears 0 listed
  | .count waited _ rest small => waited = false ∧ policy.Bears small rest
  | .drowse _ => False
  | .asleep _ => False
  | .inspect _ rest => ∀ c ∈ rest, c ∈ listed
  | _ => True

/-- A scheduling that gets all it claims. -/
def Scheduling.Calm (v : Situation) : Scheduling → Prop
  | .giveUp .. => False
  | .withdraw .. => False
  | .handBack .. => False
  | .restore _ => v.Content
  | _ => True

def Consultation.Calm (v : Situation) : Consultation → Prop
  | .thinking call => call.phase.Calm v.policy v.roster.newestFirst
  | .scheduling _ phase => phase.Calm v

def Task.Calm (v : Situation) : Task → Prop
  | .insert .. => v.Content
  | .flush => v.Content
  | .report _ => v.Eased
  | .request => v.Content
  | .requested => v.Content
  | .newest => v.Content
  | .consult k => k.Calm v
  | _ => True

/-- A merge that does not fail. -/
def Job.Calm (v : Situation) (job : Job) : Prop :=
  match job.phase with
  | .fail _ => False
  | .release _ => False
  | .consult k => k.Calm v
  | _ => True

/-- A thread that leaves nothing to do when it is done. -/
def Thread.Calm (v : Situation) : Thread → Prop
  | .call task => task.Calm v
  | .merge job => job.Calm v

theorem Situation.eased_of_content {v : Situation} (hjoins : v.policy.Joins) (h : v.Content) :
    v.Eased := by
  intro largest tolerance hpolicy
  rw [Situation.Content, hpolicy] at h
  rw [hpolicy] at hjoins ⊢
  exact (Policy.bears_of_content (c := ⟨0, ⟨0, 0⟩, 0, none⟩) hjoins h).1

/-- A call of the policy that is idle and has not waited has its answer. -/
theorem Phase.exists_finished {policy : Policy} {listed : List Component} {phase : Phase}
    (hidle : phase.Idle) (hcalm : phase.Calm policy listed) :
    ∃ answer, phase = .finished answer := by
  cases phase with
  | finished answer => exact ⟨answer, rfl⟩
  | observe => exact nomatch hcalm.1.symm.trans hidle
  | look => exact nomatch hcalm.1.symm.trans hidle
  | count => exact nomatch hcalm.1.symm.trans hidle
  | drowse => exact hcalm.elim
  | asleep => exact hcalm.elim
  | _ => exact hidle.elim

/-- An idle thread has nothing to do with what is to be merged. -/
theorem Thread.calm_of_idle {v w : Situation} {thread : Thread} (hidle : thread.Idle)
    (hcalm : thread.Calm v) : thread.Calm w := by
  have hconsult : ∀ {k : Consultation}, k.Idle → k.Calm v → k.Calm w := by
    intro k hidle hcalm
    cases k with
    | thinking call =>
      obtain ⟨policy, full, phase⟩ := call
      obtain ⟨answer, rfl⟩ := Phase.exists_finished hidle hcalm
      trivial
    | scheduling call phase =>
      cases phase with
      | answered answer => trivial
      | _ => exact hidle.elim
  cases thread with
  | call task =>
    cases task with
    | consult k => exact hconsult hidle hcalm
    | drain => trivial
    | draining => trivial
    | drowse => trivial
    | asleep => trivial
    | returned => trivial
    | _ => exact hidle.elim
  | merge job =>
    obtain ⟨members, phase⟩ := job
    cases phase with
    | consult k => exact hconsult hidle hcalm
    | land => trivial
    | signal => trivial
    | «over» => trivial
    | lost => trivial
    | _ => exact hidle.elim

theorem Phase.calm_start {policy : Policy} {listed : List Component} (full : Bool)
    (added : Component) (byMerge : Bool)
    (heased : ∀ largest tolerance, policy = .runs largest tolerance → policy.Bears 0 listed) :
    (Call.start policy full added byMerge).phase.Calm policy listed ∧
      ((Call.start policy full added byMerge).phase.Idle → policy.Content listed) := by
  rcases Call.phase_start policy full added byMerge with
    h | ⟨⟨largest, tolerance, hruns⟩, h⟩ | h | ⟨hnever, h⟩ <;> rw [h]
  · exact ⟨trivial, False.elim⟩
  · exact ⟨⟨rfl, heased largest tolerance hruns⟩, fun hidle => nomatch hidle⟩
  · exact ⟨trivial, False.elim⟩
  · rw [hnever]
    exact ⟨trivial, fun _ => trivial⟩

/-- A call of the policy that finds all components free comes to an order, or to a list it is
content with. -/
theorem Phase.calm_advances {b : Board} {policy : Policy} {full : Bool} {phase phase' : Phase}
    (h : Advances b policy full phase phase')
    (hfits : phase.Fits policy full b.roster.newestFirst)
    (hcalm : phase.Calm policy b.roster.newestFirst)
    (hfree : ∀ c ∈ b.roster.newestFirst, b.state c = .readable) :
    phase'.Calm policy b.roster.newestFirst ∧
      (phase'.Idle → policy.Content b.roster.newestFirst) := by
  cases h with
  | wake =>
    cases policy with
    | runs => exact ⟨trivial, False.elim⟩
    | all => exact ⟨trivial, False.elim⟩
    | never => exact ⟨trivial, fun _ => trivial⟩
  | observe => exact ⟨hcalm, fun hidle => nomatch hcalm.1.symm.trans hidle⟩
  | look => exact ⟨hcalm, fun hidle => nomatch hcalm.1.symm.trans hidle⟩
  | count hsmall hfew =>
    rename_i waited observed small c rest
    refine ⟨⟨hcalm.1, ?_⟩, fun hidle => nomatch hcalm.1.symm.trans hidle⟩
    have hbears := hcalm.2
    rw [Policy.Bears, List.takeWhile_cons_of_pos (by simpa using hsmall), List.length_cons]
      at hbears
    rw [Policy.Bears]
    omega
  | counted =>
    rw [hcalm.1]
    exact ⟨trivial, False.elim⟩
  | block hmany =>
    have hbears := hcalm.2
    rw [Policy.Bears] at hbears
    rcases hmany with hmany | ⟨c, more, rfl, hsmall, hmany⟩
    · omega
    · rw [List.takeWhile_cons_of_pos (by simpa using hsmall), List.length_cons] at hbears
      omega
  | sleep => exact hcalm.elim
  | pass => exact hcalm.elim
  | leave => exact hcalm.elim
  | survey =>
    refine ⟨fun c hc => ?_, False.elim⟩
    cases policy with
    | runs => exact List.mem_reverse.1 hc
    | all => exact hc
    | never => exact hc
  | inspect hstate => exact ⟨fun c hc => hcalm c (List.mem_cons_of_mem _ hc), False.elim⟩
  | defer hstate => exact absurd (hfree _ (hcalm _ List.mem_cons_self)) hstate
  | everything hfull => exact ⟨trivial, False.elim⟩
  | run hmembers hpair => exact ⟨trivial, False.elim⟩
  | content hcontent =>
    refine ⟨trivial, fun _ => ?_⟩
    rw [Phase.Fits] at hfits
    rwa [hfits] at hcontent

namespace Store

variable {s s' t : Store} {new : List Job} {thread thread' : Thread}

/-- A scheduling that gets all it claims submits a merge, unless nothing is listed. -/
theorem calm_schedules {phase phase' : Scheduling} (hjoins : s.policy.Joins)
    (h : s.Schedules phase s' phase' new) (hfits : phase.Fits s.situation)
    (hcalm : phase.Calm s.situation)
    (hopen : ∀ (members : List Component) (e : Error), s.pool.submit { members } ≠ .error e)
    (hfree : ∀ all claimed rest, phase = .claim all claimed rest → ∀ c ∈ rest,
      s.state c = .readable) :
    phase'.Calm s'.situation ∧
      (new = [] → ∀ answer, phase' = .answered answer → s'.situation.Content) := by
  cases h with
  | clear => exact ⟨trivial, nofun⟩
  | gather => exact ⟨trivial, nofun⟩
  | claimNone =>
    rename_i all
    cases all with
    | true =>
      have hempty : s.situation.roster.newestFirst = [] := hfits.2.1.symm
      refine ⟨?_, nofun⟩
      show s.policy.Content s.situation.roster.newestFirst
      rw [hempty]
      exact Policy.content_nil hjoins
    | false => exact absurd hfits.2.1 (Nat.not_succ_le_zero 1)
  | claimedAll hmembers => exact ⟨trivial, nofun⟩
  | claim hstate => exact ⟨trivial, nofun⟩
  | claimLost hstate => exact absurd (hfree _ _ _ rfl _ List.mem_cons_self) hstate
  | enlist => exact ⟨trivial, nofun⟩
  | submit hpool =>
    rw [Scheduling.conclude_ok_true]
    exact ⟨trivial, fun hnone => nomatch hnone⟩
  | refuse hpool => exact absurd hpool (hopen _ _)
  | restore => exact ⟨trivial, fun _ _ _ => hcalm⟩
  | _ => exact hcalm.elim

/-- What a thread has not claimed is free. -/
def Free (s : Store) (thread : Thread) : Prop :=
  ∀ c ∈ s.board.roster.newestFirst, c.serial ∉ thread.stake.owned.map Component.serial →
    s.state c = .readable

theorem calm_consults {k k' : Consultation} (hjoins : s.policy.Joins)
    (h : s.Consults k s' k' new) (htidy : s.situation.Tidy) (hfits : k.Fits s.situation)
    (hcalm : k.Calm s.situation) (hwork : ¬ k.Idle)
    (hopen : ∀ (members : List Component) (e : Error), s.pool.submit { members } ≠ .error e)
    (hfree : s.Free (.call (.consult k))) :
    k'.Calm s'.situation ∧ (new = [] → k'.Idle → s'.situation.Content) := by
  cases h with
  | think hstep =>
    have hadvances := Phase.advances_of_step hstep
    obtain ⟨tracker, metrics, rfl, hcall, -⟩ := Call.step_frame hstep
    rw [hcall]
    rw [hfits.1] at hadvances
    have hphase := hfits.2
    rw [hfits.1] at hphase
    obtain ⟨hcalm', hcontent⟩ := Phase.calm_advances hadvances hphase hcalm fun c hc =>
      hfree c hc List.not_mem_nil
    exact ⟨hcalm', fun _ => hcontent⟩
  | order horder =>
    rename_i call order
    cases order <;> exact ⟨trivial, fun _ => False.elim⟩
  | schedule hphase hstep =>
    rename_i call phase phase'
    obtain ⟨hcalm', hcontent⟩ := calm_schedules hjoins hstep hfits.2 hcalm hopen (by
      rintro all claimed rest rfl c hc
      have hlisted : claimed ++ rest <:+: s.board.roster.newestFirst := hfits.2.1
      have hserials := (nodup_serials htidy.lists).sublist
        (hlisted.sublist.map Component.serial)
      rw [List.map_append, List.nodup_append] at hserials
      refine hfree c (hlisted.subset (List.mem_append_right _ hc)) fun hmem => ?_
      exact hserials.2.2 _ hmem _ (List.mem_map_of_mem hc) rfl)
    refine ⟨hcalm', fun hnone hidle => ?_⟩
    cases phase' with
    | answered answer => exact hcontent hnone answer rfl
    | _ => exact hidle.elim
  | reply => exact absurd trivial hwork

/-- What a client does when nothing is to be merged leaves nothing to be merged, a flush apart. -/
theorem calm_calls {task task' : Task} (hjoins : s.policy.Joins) (h : s.Calls task s' task' new)
    (htidy : s.situation.Tidy) (hfits : task.Fits s.situation) (hcalm : task.Calm s.situation)
    (hwork : ¬ task.Idle) (hword : s'.nextSerial ≤ Numeral.word)
    (hopen : ∀ (members : List Component) (e : Error), s.pool.submit { members } ≠ .error e)
    (hfree : s.Free (.call task)) :
    task'.Calm s'.situation ∧ (new = [] → task'.Idle → s'.situation.Content) := by
  cases h with
  | insert htask =>
    rcases htask with rfl | rfl
    · exact ⟨hcalm, fun _ => False.elim⟩
    · exact ⟨trivial, fun _ _ => hcalm⟩
  | flushFails => exact ⟨trivial, fun _ _ => hcalm⟩
  | flushNone => exact ⟨trivial, fun _ _ => hcalm⟩
  | flush hserial =>
    rename_i files memory c
    refine ⟨fun largest tolerance hruns => ?_, fun _ => False.elim⟩
    have hlist := Roster.newestFirst_of_lists (newestFirst_prepend htidy hserial hword)
    have hpolicy : s.policy = .runs largest tolerance := hruns
    have hcontent : s.policy.Content s.board.roster.newestFirst := hcalm
    show s.policy.Bears 0 (s.board.roster.prepend c).newestFirst
    rw [hlist, hpolicy]
    rw [hpolicy] at hcontent hjoins
    exact (Policy.bears_of_content hjoins hcontent).2
  | report =>
    obtain ⟨hstart, hidle⟩ := Phase.calm_start s.fullRequested _ false hcalm
    exact ⟨hstart, fun _ => hidle⟩
  | request => exact ⟨hcalm, fun _ => False.elim⟩
  | requested htask => rcases htask with rfl | rfl <;> exact ⟨hcalm, fun _ => False.elim⟩
  | newestNone => exact ⟨trivial, fun _ _ => hcalm⟩
  | newest =>
    obtain ⟨hstart, hidle⟩ :=
      Phase.calm_start true _ false (Situation.eased_of_content hjoins hcalm)
    exact ⟨hstart, fun _ => hidle⟩
  | consulted hanswer => exact absurd (Consultation.idle_of_answer? hanswer) hwork
  | consult hstep => exact calm_consults hjoins hstep htidy hfits hcalm hwork hopen hfree
  | _ => exact absurd trivial hwork

/-- A merge that does not fail calls the policy. -/
theorem calm_merges {job : Job} {phase : Job.Phase} (hjoins : s.policy.Joins)
    (h : s.Merges job s' phase new) (htidy : s.situation.Tidy) (hfits : job.Fits s.situation)
    (hcalm : job.Calm s.situation) (hwork : ¬ job.Idle) (hfair : phase.Fair)
    (hopen : ∀ (members : List Component) (e : Error), s.pool.submit { members } ≠ .error e)
    (hfree : s.Free (.merge job)) :
    Job.Calm s'.situation { job with phase } ∧
      (new = [] → Job.Idle { job with phase } → s'.situation.Content) := by
  cases h with
  | readFails =>
    rename_i f
    cases f <;> exact hfair.elim
  | buildFails =>
    rename_i f
    cases f <;> exact hfair.elim
  | swapFails => exact hfair.elim
  | retireLost => exact hfair.elim
  | failRetry => exact hcalm.elim
  | failPark => exact hcalm.elim
  | releasedNone => exact hcalm.elim
  | released => exact hcalm.elim
  | release => exact hcalm.elim
  | releaseLost => exact hcalm.elim
  | consider => exact ⟨trivial, fun _ => False.elim⟩
  | consulted hanswer => exact absurd (Consultation.idle_of_answer? hanswer) hwork
  | consult hstep => exact calm_consults hjoins hstep htidy hfits hcalm hwork hopen hfree
  | land => exact absurd trivial hwork
  | signal => exact absurd trivial hwork
  | _ => exact ⟨trivial, fun _ => False.elim⟩

/-- A thread that ceases to be at work has submitted a merge, or leaves nothing to be merged. -/
theorem calm_acts (hjoins : s.policy.Joins) (h : s.Acts thread s' thread' new)
    (htidy : s.situation.Tidy) (hfits : thread.Fits s.situation) (hcalm : thread.Calm s.situation)
    (hwork : ¬ thread.Idle) (hword : s'.nextSerial ≤ Numeral.word)
    (hfair : ∀ job phase, thread.mergeStep? thread' = some (job, phase) → phase.Fair)
    (hopen : ∀ (members : List Component) (e : Error), s.pool.submit { members } ≠ .error e)
    (hfree : s.Free thread) :
    thread'.Calm s'.situation ∧ (new = [] → thread'.Idle → s'.situation.Content) := by
  cases h with
  | call hcalls => exact calm_calls hjoins hcalls htidy hfits hcalm hwork hword hopen hfree
  | merge hmerges =>
    exact calm_merges hjoins hmerges htidy hfits hcalm hwork (hfair _ _ rfl) hopen hfree

theorem calm_consults_of_idle {k k' : Consultation} (h : s.Consults k s' k' new) (hidle : k.Idle)
    (hcalm : k.Calm s.situation) : k'.Calm s'.situation := by
  cases h with
  | think hstep =>
    rename_i call call' board
    obtain ⟨policy, full, phase⟩ := call
    obtain ⟨answer, rfl⟩ := Phase.exists_finished hidle hcalm
    simp [Call.step] at hstep
  | order horder =>
    rename_i call order
    cases order <;> trivial
  | schedule hphase hstep =>
    rename_i call phase phase'
    cases phase with
    | answered answer => simp [Scheduling.answer?] at hphase
    | _ => exact hidle.elim
  | reply =>
    rename_i call answer
    obtain ⟨metrics, result, hreply⟩ := Call.reply_frame s.board call answer
    rw [hreply]
    trivial

/-- An idle thread that does not wait in a call of the policy does not begin to. -/
theorem calm_acts_of_idle (h : s.Acts thread s' thread' new) (hidle : thread.Idle)
    (hcalm : thread.Calm s.situation) : thread'.Calm s'.situation := by
  cases h with
  | call hcalls =>
    cases hcalls with
    | consulted hanswer => trivial
    | consult hstep => exact calm_consults_of_idle hstep hidle hcalm
    | drain => trivial
    | draining htask => rcases htask with rfl | rfl <;> trivial
    | drowse htask => rcases htask with rfl | rfl <;> trivial
    | wake => trivial
    | _ => exact hidle.elim
  | merge hmerges =>
    cases hmerges with
    | consulted hanswer => trivial
    | consult hstep => exact calm_consults_of_idle hstep hidle hcalm
    | land => trivial
    | signal => trivial
    | _ => exact hidle.elim

end Store

end Strata
