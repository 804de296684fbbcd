import Mathlib.Data.List.Perm.Basic
import Strata.Proofs.Component.Roster
import Strata.Proofs.Store.Custody
import Strata.Proofs.Store.Steps

/-!
# The parties of an index

What calls and merges have of components, at every place of what they do: a call of the policy that
looks through states has the list it took down, the scheduling of a merge holds what it has claimed,
and a merge holds its members until its result stands in their place. Every step of a call or a
merge keeps this in order.
-/

namespace Strata

/-- A list in the order of inspection, newest first. -/
def Call.newestFirst (policy : Policy) (listed : List Component) : List Component :=
  match policy with
  | .runs .. => listed.reverse
  | _ => listed

/-- What a call of the policy has. -/
def Call.party (call : Call) : Party :=
  match call.phase with
  | .inspect listed _ => { tracked := [newestFirst call.policy listed] }
  | .ordered (.run members) => { tracked := [members] }
  | _ => {}

/-- What the scheduling of a merge has. -/
def Scheduling.party : Scheduling → Party
  | .claim _ claimed rest => { tracked := [claimed ++ rest], held := claimed }
  | .giveUp _ rest => { held := rest }
  | .enlist _ members => { tracked := [members], held := members }
  | .submit _ members => { tracked := [members], held := members }
  | .withdraw _ members _ => { held := members }
  | .handBack _ rest _ => { held := rest }
  | _ => {}

def Consultation.party : Consultation → Party
  | .thinking call => call.party
  | .scheduling _ phase => phase.party

/-- What a merge has. -/
def Job.party (job : Job) : Party :=
  match job.phase with
  | .read => { tracked := [job.members], held := job.members }
  | .number _ => { tracked := [job.members], held := job.members }
  | .build serial _ => { tracked := [job.members], held := job.members, making := [serial] }
  | .swap result => { tracked := [job.members], held := job.members, making := [result.serial] }
  | .retire _ rest => { leaving := rest }
  | .fail _ => { held := job.members }
  | .release rest => { held := rest }
  | .consult k => k.party
  | _ => {}

def Task.party : Task → Party
  | .consult k => k.party
  | _ => {}

/-- The job a message brings. -/
def Message.job? {α : Type} : Message α → Option α
  | .run job => some job
  | .stop => none

/-- The job a worker is at. -/
def Worker.job? {α : Type} : Worker α → Option α
  | .busy job => some job
  | _ => none

namespace Pool

variable {α : Type} {p p' : Pool α} {job : α} {i : Nat}

/-- The jobs that wait, and those that workers are at. -/
def jobs (p : Pool α) : List α :=
  p.queue.filterMap Message.job? ++ p.workers.filterMap Worker.job?

@[simp] theorem jobs_start (threads : Nat) : (start threads : Pool α).jobs = [] := by
  have hidle : ∀ count, (List.replicate count (Worker.idle : Worker α)).filterMap Worker.job? =
      [] := by
    intro count
    rw [List.filterMap_eq_nil_iff]
    intro w hw
    rw [List.eq_of_mem_replicate hw]
    rfl
  exact hidle _

theorem jobs_submit (h : p.submit job = .ok p') :
    p'.workers = p.workers ∧ p'.jobs.Perm (job :: p.jobs) := by
  unfold submit at h
  split at h
  · contradiction
  · obtain rfl := Except.ok.inj h
    refine ⟨rfl, ?_⟩
    simp only [jobs, List.filterMap_append, List.append_assoc]
    exact List.perm_middle

/-- What a worker is at may be changed, and nothing else with it. -/
theorem jobs_set {old : Worker α} (h : p.workers[i]? = some old) :
    ∃ others, p.jobs.Perm (old.job?.toList ++ others) ∧
      ∀ w, (p.setWorker i w).jobs.Perm (w.job?.toList ++ others) := by
  obtain ⟨hi, hold⟩ := List.getElem?_eq_some_iff.1 h
  have hput : ∀ (w : Worker α) {workers : List (Worker α)},
      workers.Perm (w :: p.workers.eraseIdx i) →
      (p.queue.filterMap Message.job? ++ workers.filterMap Worker.job?).Perm
        (w.job?.toList ++ (p.queue.filterMap Message.job? ++
          (p.workers.eraseIdx i).filterMap Worker.job?)) := by
    intro w workers hworkers
    have hjobs : (w :: p.workers.eraseIdx i).filterMap Worker.job? =
        w.job?.toList ++ (p.workers.eraseIdx i).filterMap Worker.job? := by
      cases hw : w.job? with
      | none => rw [List.filterMap_cons_none hw]; rfl
      | some job => rw [List.filterMap_cons_some hw]; rfl
    have hall := hworkers.filterMap Worker.job?
    rw [hjobs] at hall
    refine (hall.append_left _).trans ?_
    rw [← List.append_assoc, ← List.append_assoc]
    exact List.perm_append_comm.append_right _
  refine ⟨_, hput old ?_, fun w => hput w (List.set_perm_cons_eraseIdx hi w)⟩
  rw [← hold]
  exact (List.getElem_cons_eraseIdx_perm hi).symm

theorem exists_jobs_perm (h : p.jobOf? i = some job) : ∃ others, p.jobs.Perm (job :: others) := by
  unfold jobOf? at h
  split at h
  · rename_i job' hget
    obtain rfl := Option.some.inj h
    obtain ⟨others, hbefore, -⟩ := jobs_set hget
    exact ⟨others, hbefore⟩
  · contradiction

/-- A worker goes on to another job, or to none. -/
theorem jobs_setWorker (h : p.jobOf? i = some job) {others : List α}
    (hothers : p.jobs.Perm (job :: others)) (w : Worker α) :
    (p.setWorker i w).jobs.Perm (w.job?.toList ++ others) := by
  unfold jobOf? at h
  split at h
  · rename_i job' hget
    obtain rfl := Option.some.inj h
    obtain ⟨left, hbefore, hafter⟩ := jobs_set hget
    have hleft : left.Perm others := (hbefore.symm.trans hothers).cons_inv
    exact (hafter w).trans (hleft.append_left _)
  · contradiction

/-- A worker goes on to another job while one joins the queue. -/
theorem jobs_submit_setWorker {new : α} (h : p.jobOf? i = some job)
    (hsubmit : p.submit new = .ok p')
    {others : List α} (hothers : p.jobs.Perm (job :: others)) (w : Worker α) :
    (p'.setWorker i w).jobs.Perm (w.job?.toList ++ new :: others) := by
  obtain ⟨hworkers, hjobs⟩ := jobs_submit hsubmit
  have h' : p'.jobOf? i = some job := by
    rw [jobOf?, hworkers]
    exact h
  exact jobs_setWorker h' (hjobs.trans ((hothers.cons _).trans (List.Perm.swap ..))) w

/-- A job that is taken from the queue is the same job. -/
theorem jobs_take (h : p.take i = some p') : p'.jobs.Perm p.jobs := by
  unfold take at h
  split at h
  · rename_i job queue hidle hqueue
    obtain rfl := Option.some.inj h
    obtain ⟨others, hbefore, hafter⟩ := jobs_set (p := { p with queue }) hidle
    refine (hafter (.busy job)).trans ?_
    have hjobs : p.jobs = job :: jobs { p with queue } := by
      rw [jobs, hqueue]
      rfl
    rw [hjobs]
    exact (hbefore.cons job).symm
  · rename_i queue hidle hqueue
    obtain rfl := Option.some.inj h
    obtain ⟨others, hbefore, hafter⟩ := jobs_set (p := { p with queue }) hidle
    have hjobs : p.jobs = jobs { p with queue } := by
      rw [jobs, hqueue]
      rfl
    rw [hjobs]
    exact (hafter .gone).trans hbefore.symm
  · contradiction

theorem jobs_shutdown : p.shutdown.jobs = p.jobs := by
  unfold shutdown
  split
  · rfl
  · have hstop : ∀ count, (List.replicate count (Message.stop : Message α)).filterMap Message.job? =
        [] := by
      intro count
      rw [List.filterMap_eq_nil_iff]
      intro m hm
      rw [List.eq_of_mem_replicate hm]
      rfl
    simp only [jobs, List.filterMap_append, hstop, List.append_nil]

end Pool

namespace Store

/-- The components of an index, with those that are listed and those that ever were. -/
def desk (s : Store) (listed known : List Component) : Desk :=
  ⟨listed, known, s.board.states, s.nextSerial⟩

/-- What all calls and merges have. -/
def parties (s : Store) : List Party :=
  s.clients.map Task.party ++ s.pool.jobs.map Job.party

theorem mem_parties {s : Store} {job : Job} (h : job ∈ s.pool.jobs) : job.party ∈ s.parties :=
  List.mem_append_right _ (List.mem_map_of_mem h)

end Store

namespace Call

theorem newestFirst_inspection (policy : Policy) (roster : Roster) :
    newestFirst policy (inspection policy roster) = roster.newestFirst := by
  cases policy <;> simp [newestFirst, inspection, Roster.oldestFirst]

theorem party_afterCount (policy : Policy) (full : Bool) (b : Board) (tolerance : Nat)
    (waited : Bool) (observed small : Nat) :
    (Call.mk policy full (afterCount b tolerance waited observed small).2).party = {} := by
  unfold afterCount
  split
  · cases waited <;> rfl
  · rfl

theorem party_stepCount (policy : Policy) (full : Bool) (b : Board) (largest tolerance : Nat)
    (waited : Bool) (observed : Nat) (rest : List Component) (small : Nat) :
    (Call.mk policy full (stepCount b largest tolerance waited observed rest small).2).party =
      {} := by
  cases rest with
  | nil => exact party_afterCount ..
  | cons c rest =>
    simp only [stepCount]
    split
    · exact party_afterCount ..
    · split
      · exact party_afterCount ..
      · split
        · exact party_afterCount ..
        · rfl

/-- What is chosen is a stretch of the list that was looked through. -/
theorem party_choose (policy : Policy) (full : Bool) (listed : List Component) :
    (Call.mk policy full (choose policy full listed)).party.Within
      { tracked := [newestFirst policy listed] } := by
  unfold choose
  split
  · exact Party.empty_within _
  · split
    · rename_i largest tolerance
      split
      · rename_i run hrun
        refine ⟨fun xs hxs => ?_, List.nil_sublist _, List.nil_sublist _, List.nil_sublist _⟩
        obtain rfl := List.mem_singleton.1 hxs
        refine ⟨listed.reverse, List.mem_singleton_self _, List.reverse_infix.2 ?_⟩
        exact (List.drop_suffix _ _).isInfix.trans (List.take_prefix _ _).isInfix
      · exact Party.empty_within _
    · split
      · exact Party.within_self _
      · exact Party.empty_within _
    · exact Party.empty_within _

/-- A step of a call of the policy takes the list of components down, or keeps to the list it has.
-/
theorem party_step {b b' : Board} {c c' : Call} (h : c.step b = some (b', c')) :
    c'.party.Within c.party ∨ c'.party = { tracked := [b.roster.newestFirst] } := by
  obtain ⟨policy, full, phase⟩ := c
  cases phase with
  | survey =>
    simp only [step, Option.some.injEq, Prod.mk.injEq] at h
    obtain ⟨rfl, rfl⟩ := h
    refine .inr ?_
    show Party.mk [newestFirst policy (inspection policy b.roster)] [] [] [] = _
    rw [newestFirst_inspection]
  | inspect listed rest =>
    cases rest with
    | nil =>
      simp only [step, Option.some.injEq, Prod.mk.injEq] at h
      obtain ⟨rfl, rfl⟩ := h
      exact .inl (party_choose policy full listed)
    | cons first rest =>
      simp only [step] at h
      split at h
      · obtain ⟨rfl, rfl⟩ := Prod.mk.inj (Option.some.inj h)
        exact .inl (Party.within_self _)
      · obtain ⟨rfl, rfl⟩ := Prod.mk.inj (Option.some.inj h)
        exact .inl (Party.empty_within _)
  | wake =>
    simp only [step, Option.some.injEq, Prod.mk.injEq] at h
    obtain ⟨rfl, rfl⟩ := h
    refine .inl ?_
    cases policy <;> exact Party.empty_within _
  | observe waited =>
    simp only [step, Option.some.injEq, Prod.mk.injEq] at h
    obtain ⟨rfl, rfl⟩ := h
    exact .inl (Party.empty_within _)
  | look waited observed =>
    simp only [step, Option.some.injEq, Prod.mk.injEq] at h
    obtain ⟨rfl, rfl⟩ := h
    exact .inl (Party.empty_within _)
  | count waited observed rest small =>
    simp only [step, Option.some.injEq, Prod.mk.injEq] at h
    obtain ⟨-, rfl⟩ := h
    refine .inl ?_
    show Party.Within (Call.mk policy full _).party _
    rw [party_stepCount]
    exact Party.empty_within _
  | drowse observed =>
    simp only [step] at h
    split at h
    · obtain ⟨-, rfl⟩ := Prod.mk.inj (Option.some.inj h)
      exact .inl (Party.empty_within _)
    · obtain ⟨-, rfl⟩ := Prod.mk.inj (Option.some.inj h)
      exact .inl (Party.empty_within _)
  | asleep observed =>
    simp only [step] at h
    split at h
    · contradiction
    · obtain ⟨-, rfl⟩ := Prod.mk.inj (Option.some.inj h)
      exact .inl (Party.empty_within _)
  | ordered order => simp [step] at h
  | finished answer => simp [step] at h

end Call

namespace Scheduling

@[simp] theorem party_conclude (all : Bool) (answer : Except Error Bool) :
    (conclude all answer).party = {} := by
  unfold conclude
  split <;> rfl

@[simp] theorem party_ofOrder (order : Order) :
    (ofOrder order).party = (match order with
      | .everything => {}
      | .run members => { tracked := [members] }) := by
  cases order <;> rfl

end Scheduling

namespace Store

variable {s s' : Store} {listed known : List Component} {rest : List Party}

/-- A component handed back may be claimed again. -/
theorem orderly_release {c : Component} {held : List Component}
    (h : (s.desk listed known).Orderly ({ held := c :: held } :: rest)) :
    ((s.moved c .release).desk listed known).Orderly ({ held } :: rest) := by
  have htokens := h.tokens
  rw [List.flatMap_cons] at htokens
  have hnodup : (c :: held).Nodup := by
    simpa [Party.tokens] using (List.nodup_append.1 htokens).1
  refine Desk.orderly_drop (q := { held }) h
    ⟨by simp, List.sublist_cons_self c held, List.Sublist.refl _, List.Sublist.refl _⟩ ?_ ?_
      (.inl ?_)
  · simp [Party.tokens]
  · simpa [Party.tokens] using (List.nodup_cons.1 hnodup).1
  · exact ((h.admits _ List.mem_cons_self).held c List.mem_cons_self).1

/-- After a step of one party all is in order, with the merge it may have submitted. -/
def OrderlyAfter (s t : Store) (listed known : List Component) (p : Party) (rest : List Party) :
    Prop :=
  (t.pool = s.pool ∧ (t.desk listed known).Orderly (p :: rest)) ∨
    ∃ members, s.pool.submit { members } = .ok t.pool ∧
      (t.desk listed known).Orderly (p :: Job.party { members } :: rest)

/-- A step of scheduling keeps custody in order. The merge it submits takes what was claimed. -/
theorem orderly_schedules {phase phase' : Scheduling} {new : List Job}
    (hlists : s.board.roster.Lists listed)
    (h : (s.desk listed known).Orderly (phase.party :: rest))
    (hstep : s.Schedules phase s' phase' new) :
    OrderlyAfter s s' listed known phase'.party rest := by
  cases hstep with
  | gather =>
    refine .inl ⟨rfl, ?_⟩
    rw [Roster.newestFirst_of_lists hlists]
    exact Desk.orderly_track h
  | claimNone =>
    refine .inl ⟨rfl, ?_⟩
    rw [Scheduling.party_conclude]
    exact Desk.orderly_clear h
  | claimedAll =>
    refine .inl ⟨rfl, ?_⟩
    simpa [Scheduling.party] using h
  | claim hstate =>
    rename_i all claimed more c
    refine .inl ⟨rfl, ?_⟩
    have hclaim := Desk.orderly_claim (c := c) h List.mem_cons_self (by simp) hstate
    have hsplit : claimed ++ [c] ++ more = claimed ++ c :: more := by simp
    rw [Scheduling.party, hsplit]
    exact hclaim
  | claimLost => exact .inl ⟨rfl, Desk.orderly_untrack h⟩
  | giveUp => exact .inl ⟨rfl, orderly_release h⟩
  | handBack => exact .inl ⟨rfl, orderly_release h⟩
  | gaveUp =>
    refine .inl ⟨rfl, ?_⟩
    rw [Scheduling.party_conclude]
    exact h
  | handedBack =>
    refine .inl ⟨rfl, ?_⟩
    rw [Scheduling.party_conclude]
    exact h
  | giveUpLost =>
    refine .inl ⟨rfl, ?_⟩
    rw [Scheduling.party_conclude]
    exact Desk.orderly_clear h
  | handBackLost =>
    refine .inl ⟨rfl, ?_⟩
    rw [Scheduling.party_conclude]
    exact Desk.orderly_clear h
  | submit hpool =>
    refine .inr ⟨_, hpool, ?_⟩
    rw [Scheduling.party_conclude]
    exact Desk.orderly_cons_empty.2 h
  | refuse => exact .inl ⟨rfl, Desk.orderly_untrack h⟩
  | _ => exact .inl ⟨rfl, h⟩

/-- A step of a call of the policy, or of the scheduling it ordered, keeps custody in order. -/
theorem orderly_consults {k k' : Consultation} {new : List Job}
    (hlists : s.board.roster.Lists listed)
    (h : (s.desk listed known).Orderly (k.party :: rest)) (hstep : s.Consults k s' k' new) :
    OrderlyAfter s s' listed known k'.party rest := by
  cases hstep with
  | think hcall =>
    obtain ⟨tracker, metrics, rfl, -, -⟩ := Call.step_frame hcall
    refine .inl ⟨rfl, ?_⟩
    rcases Call.party_step hcall with hwithin | htrack
    · exact Desk.orderly_narrow h hwithin
    · rw [Consultation.party, htrack, Roster.newestFirst_of_lists hlists]
      exact Desk.orderly_track (Desk.orderly_clear h)
  | order horder =>
    rename_i call order
    obtain ⟨policy, full, phase⟩ := call
    refine .inl ⟨rfl, ?_⟩
    cases phase with
    | ordered order' =>
      obtain rfl : order' = order := by simpa [Call.order?] using horder
      rw [Consultation.party, Scheduling.party_ofOrder]
      cases order' with
      | run members => exact h
      | everything => exact h
    | _ => simp [Call.order?] at horder
  | schedule hphase hstep => exact orderly_schedules hlists h hstep
  | reply =>
    rename_i call answer
    obtain ⟨metrics, result, hreply⟩ := Call.reply_frame s.board call answer
    rw [hreply]
    exact .inl ⟨rfl, Desk.orderly_clear h⟩

theorem party_consult (full : Bool) (added : Component) (byMerge : Bool) :
    (s.consult full added byMerge).party = {} := by
  unfold consult Call.start Consultation.party
  cases byMerge with
  | true => rfl
  | false =>
    cases s.policy with
    | runs largest tolerance => by_cases hsize : added.size ≤ largest <;> simp [hsize, Call.party]
    | _ => rfl

/-- A step of a call keeps custody in order, a flush apart. -/
theorem orderly_stepTask {task task' : Task} (hlists : s.board.roster.Lists listed)
    (h : (s.desk listed known).Orderly (task.party :: rest)) (hflush : task ≠ .flush)
    (hstep : s.stepTask task = some (s', task')) :
    OrderlyAfter s s' listed known task'.party rest := by
  obtain ⟨new, hcalls⟩ := calls_of_stepTask hstep
  cases hcalls with
  | flushFails => exact absurd rfl hflush
  | flushNone => exact absurd rfl hflush
  | flush => exact absurd rfl hflush
  | report =>
    refine .inl ⟨rfl, ?_⟩
    rw [Task.party, party_consult]
    exact h
  | newest =>
    refine .inl ⟨rfl, ?_⟩
    rw [Task.party, party_consult]
    exact h
  | consulted => exact .inl ⟨rfl, Desk.orderly_clear h⟩
  | consult hstep => exact orderly_consults hlists h hstep
  | insert htask => rcases htask with rfl | rfl <;> exact .inl ⟨rfl, h⟩
  | requested htask => rcases htask with rfl | rfl <;> exact .inl ⟨rfl, h⟩
  | draining htask => rcases htask with rfl | rfl <;> exact .inl ⟨rfl, h⟩
  | drowse htask => rcases htask with rfl | rfl <;> exact .inl ⟨rfl, h⟩
  | _ => exact .inl ⟨rfl, h⟩

/-- A flush lists the component it writes first, and uses up a count in any case. -/
theorem orderly_flush {c : Component} (hlists : s.board.roster.Lists listed)
    (h : (s.desk listed known).Orderly rest) (hword : s.nextSerial < Numeral.word)
    (hflush : s.flushMemory = (s', .ok (some c))) :
    s'.board.roster.Lists (c :: listed) ∧ (s'.desk (c :: listed) (c :: known)).Orderly rest := by
  obtain ⟨-, files, hbuild, rfl⟩ := flushMemory_eq_ok_iff.1 hflush
  have hserial := Directory.serial_build hbuild
  have hid : c.id = s.nextSerial := by
    rw [Component.id, hserial, Numeral.wrapped_of_lt hword]
  refine ⟨Roster.lists_prepend hlists fun hmem => ?_, ?_⟩
  · obtain ⟨other, hother, heq⟩ := List.mem_map.1 hmem
    have hlow : other.serial < s.nextSerial := h.low other (h.listed other hother)
    rw [hid, Component.id_of_lt (Nat.lt_trans hlow hword)] at heq
    omega
  · have hnumber : { s.desk listed known with next := s.nextSerial + 1 }.Orderly
        ({ making := [c.serial] } :: rest) := by
      rw [hserial]
      exact Desk.orderly_number (Desk.orderly_cons_empty.2 h)
    exact Desk.orderly_cons_empty.1
      (@Desk.orderly_list _ _ [] [] listed c hnumber rfl (.inr rfl))

/-- Where a flush lists nothing, custody stays in order all the same. -/
theorem orderly_flush_none {answer : Outcome (Option Component)}
    (h : (s.desk listed known).Orderly rest) (hflush : s.flushMemory = (s', answer))
    (hnone : ∀ c, answer ≠ .ok (some c)) :
    s'.board.roster = s.board.roster ∧ (s'.desk listed known).Orderly rest := by
  rcases flushMemory_cases hflush hnone with rfl | ⟨name, file, rfl⟩
  · exact ⟨rfl, h⟩
  · exact ⟨rfl, Desk.orderly_raise h (Nat.le_succ _)⟩

/-- A step of a merge keeps custody in order, the one apart that puts the result in place. -/
theorem orderly_merges {job : Job} {phase : Job.Phase} {new : List Job}
    (hlists : s.board.roster.Lists listed)
    (h : (s.desk listed known).Orderly (job.party :: rest))
    (hswap : ∀ result, job.phase ≠ .swap result) (hmerges : s.Merges job s' phase new) :
    OrderlyAfter s s' listed known (Job.party { job with phase }) rest := by
  cases hmerges with
  | readFails =>
    rename_i members f
    cases f with
    | error e => exact .inl ⟨rfl, Desk.orderly_untrack h⟩
    | breach => exact .inl ⟨rfl, Desk.orderly_clear h⟩
  | number => exact .inl ⟨rfl, Desk.orderly_number h⟩
  | buildFails =>
    rename_i members serial tuples files f
    cases f with
    | error e =>
      exact .inl ⟨rfl, Desk.orderly_narrow h
        ⟨fun _ hxs => (nomatch hxs), List.Sublist.refl _, List.Sublist.refl _, List.nil_sublist _⟩⟩
    | breach => exact .inl ⟨rfl, Desk.orderly_clear h⟩
  | build hrange hbuild =>
    obtain rfl := Directory.serial_build hbuild
    exact .inl ⟨rfl, h⟩
  | swapFails => exact absurd rfl (hswap _)
  | swap => exact absurd rfl (hswap _)
  | retire =>
    rename_i members leaving result c retired hmerging
    refine .inl ⟨rfl, ?_⟩
    have htokens := h.tokens
    rw [List.flatMap_cons] at htokens
    have hnodup : (c :: leaving).Nodup := (List.nodup_append.1 htokens).1
    exact Desk.orderly_drop (q := { leaving }) h
      ⟨by simp, List.Sublist.refl _, List.sublist_cons_self c leaving, List.Sublist.refl _⟩
      List.mem_cons_self (List.nodup_cons.1 hnodup).1 (.inr (by decide))
  | retireLost hstate =>
    exact absurd ((h.admits _ List.mem_cons_self).leaving _ List.mem_cons_self).2.2 hstate
  | failPark => exact .inl ⟨rfl, Desk.orderly_clear h⟩
  | release => exact .inl ⟨rfl, orderly_release h⟩
  | releaseLost => exact .inl ⟨rfl, Desk.orderly_clear h⟩
  | consulted => exact .inl ⟨rfl, Desk.orderly_clear h⟩
  | consult hconsults => exact orderly_consults hlists h hconsults
  | _ => exact .inl ⟨rfl, h⟩

theorem orderly_stepJob {job job' : Job} (hlists : s.board.roster.Lists listed)
    (h : (s.desk listed known).Orderly (job.party :: rest))
    (hswap : ∀ result, job.phase ≠ .swap result) (hstep : s.stepJob job = some (s', job')) :
    OrderlyAfter s s' listed known job'.party rest := by
  obtain ⟨phase, new, rfl, hmerges⟩ := merges_of_stepJob hstep
  exact orderly_merges hlists h hswap hmerges

/-- The result of a merge takes the place of its members: they stand together, and the merge holds
all of them. -/
theorem orderly_swap {members : List Component} {result : Component}
    (hlists : s.board.roster.Lists listed)
    (h : (s.desk listed known).Orderly (Job.party ⟨members, .swap result⟩ :: rest))
    (hmembers : members ≠ []) (hword : s.nextSerial ≤ Numeral.word) :
    ∃ newer older roster, listed = newer ++ members ++ older ∧
      s.stepJob ⟨members, .swap result⟩ =
        some ({ s with board := { s.board with roster } }, ⟨members, .retire result members⟩) ∧
      roster.Lists (newer ++ [result] ++ older) ∧
      ({ s with board := { s.board with roster } }.desk (newer ++ [result] ++ older)
        (result :: known)).Orderly ({ leaving := members } :: rest) := by
  have hself := h.admits _ List.mem_cons_self
  obtain ⟨newer, older, hlisted⟩ : members <:+: listed :=
    hself.infix_listed List.mem_cons_self fun _ hc => hc
  obtain ⟨hlow, hnew⟩ := hself.making result.serial List.mem_cons_self
  have hlow : result.serial < s.nextSerial := hlow
  rw [← hlisted] at hlists
  have hunused : result.id ∉ (newer ++ older).map Component.id := by
    intro hmem
    obtain ⟨c, hc, heq⟩ := List.mem_map.1 hmem
    have hc' : c ∈ listed := by
      rw [← hlisted]
      rcases List.mem_append.1 hc with hc | hc <;> simp [hc]
    have hin : c ∈ known := h.listed c hc'
    have hcount : c.serial < s.nextSerial := h.low c hin
    rw [Component.id_of_lt (by omega), Component.id_of_lt (by omega)] at heq
    exact hnew c hin heq
  obtain ⟨roster, hreplace, hroster⟩ := Roster.replace_eq_ok hlists hmembers hunused
  refine ⟨newer, older, roster, hlisted.symm, ?_, hroster, ?_⟩
  · simp only [stepJob, Job.ids, hreplace]
  · exact Desk.orderly_list (Desk.orderly_untrack h) hlisted.symm (.inl hmembers)

/-- A client is one party among others, and the others are not touched by its step. -/
theorem orderly_client {i : Nat} {task : Task} (htask : s.clients[i]? = some task) :
    ∃ rest, s.parties.Perm (task.party :: rest) ∧
      ∀ {t : Store} {task' : Task} {listed known : List Component}, t.clients = s.clients →
        OrderlyAfter s t listed known task'.party rest →
        (t.desk listed known).Orderly { t with clients := t.clients.set i task' }.parties := by
  obtain ⟨hi, hget⟩ := List.getElem?_eq_some_iff.1 htask
  refine ⟨(s.clients.eraseIdx i).map Task.party ++ s.pool.jobs.map Job.party, ?_, ?_⟩
  · have hperm := ((List.getElem_cons_eraseIdx_perm hi).symm.map Task.party).append_right
      (s.pool.jobs.map Job.party)
    rw [hget] at hperm
    exact hperm
  · intro t task' listed known hclients hafter
    have hperm := (List.set_perm_cons_eraseIdx hi task').map Task.party
    rw [← hclients] at hperm hafter
    rcases hafter with ⟨hpool, h⟩ | ⟨members, hsubmit, h⟩
    · refine h.perm ?_
      rw [parties, hpool]
      exact (hperm.append_right _).symm
    · have hjobs := ((Pool.jobs_submit hsubmit).2.map Job.party).symm
      refine h.perm ?_
      refine List.Perm.trans ?_ (hperm.symm.append hjobs)
      rw [List.map_cons, List.cons_append, List.map_cons]
      exact List.perm_middle.symm.cons _

theorem orderly_workerOf {d : Desk} {job : Job} (h : d.Orderly (job.party :: rest)) :
    d.Orderly ((workerOf job).job?.toList.map Job.party ++ rest) := by
  obtain ⟨members, phase⟩ := job
  cases phase with
  | «over» => exact Desk.orderly_cons_empty.1 h
  | lost => exact Desk.orderly_cons_empty.1 h
  | _ => exact h

/-- A merge that a worker is at is one party among others. -/
theorem parties_perm_worker {job : Job} {others : List Job}
    (hothers : s.pool.jobs.Perm (job :: others)) :
    s.parties.Perm (job.party :: (others.map Job.party ++ s.clients.map Task.party)) := by
  refine ((hothers.map Job.party).append_left _).trans ?_
  exact List.perm_append_comm

/-- The other parties are not touched by the step of a merge. -/
theorem orderly_worker {i : Nat} {job job' : Job} {others : List Job} {t : Store}
    (hjob : s.pool.jobOf? i = some job) (hothers : s.pool.jobs.Perm (job :: others))
    (hclients : t.clients = s.clients)
    (hafter : OrderlyAfter s t listed known job'.party
      (others.map Job.party ++ s.clients.map Task.party)) :
    (t.desk listed known).Orderly
      { t with pool := t.pool.setWorker i (workerOf job') }.parties := by
  have hfinish : ∀ {left : List Job}, (t.pool.setWorker i (workerOf job')).jobs.Perm
      ((workerOf job').job?.toList ++ left) →
      (t.desk listed known).Orderly
        (job'.party :: (left.map Job.party ++ s.clients.map Task.party)) →
      (t.desk listed known).Orderly
        { t with pool := t.pool.setWorker i (workerOf job') }.parties := by
    intro left hleft h
    refine (orderly_workerOf h).perm ?_
    rw [← List.append_assoc, ← List.map_append, parties, hclients]
    exact ((hleft.symm.map Job.party).append_right _).trans List.perm_append_comm
  rcases hafter with ⟨hpool, h⟩ | ⟨members, hsubmit, h⟩
  · rw [hpool] at hfinish ⊢
    exact hfinish (Pool.jobs_setWorker hjob hothers _) h
  · exact hfinish (Pool.jobs_submit_setWorker hjob hsubmit hothers _) h

end Store

end Strata
