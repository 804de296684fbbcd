import Strata.Proofs.Store.Claims
import Strata.Proofs.Store.Reopening

/-!
# What threads have at stake

Every place of a call of the policy, of the scheduling of a merge and of a merge itself has its
stake, and every step keeps claims in one hand. A merge that fails too often or is broken off leaves
its members claimed; they are set aside. Nothing is claimed when an index is opened, whatever its
directory holds, so a component that is merging is in one hand at all times.
-/

namespace Strata

/-- The members a merge answers for: all of them until it has succeeded, and those it has not handed
back once it has failed. -/
def Job.engaged (job : Job) : List Component :=
  match job.phase with
  | .read => job.members
  | .number _ => job.members
  | .build .. => job.members
  | .swap _ => job.members
  | .retire .. => job.members
  | .succeed _ => job.members
  | .fail _ => job.members
  | .release rest => rest
  | _ => []

/-- The components that a call of the policy has claimed for a merge it schedules. -/
def Consultation.claims : Consultation → List Component
  | .thinking _ => []
  | .scheduling _ phase => phase.party.held

/-- The components claimed for a merge that the call of a client schedules. -/
def Task.claims : Task → List Component
  | .consult k => k.claims
  | _ => []

/-- The components claimed for a merge that is scheduled at the end of another. -/
def Job.claims (job : Job) : List Component :=
  match job.phase with
  | .consult k => k.claims
  | _ => []

def Call.stake (call : Call) : Stake := { seen := call.party.tracked.flatten }

def Scheduling.stake : Scheduling → Stake
  | .claim _ claimed rest => { seen := rest, owned := claimed, claimed }
  | phase => { owned := phase.party.held, claimed := phase.party.held }

def Consultation.stake : Consultation → Stake
  | .thinking call => call.stake
  | .scheduling _ phase => phase.stake

def Task.stake : Task → Stake
  | .consult k => k.stake
  | _ => {}

def Job.stake (job : Job) : Stake :=
  match job.phase with
  | .read => { owned := job.members, claimed := job.members }
  | .number _ => { owned := job.members, claimed := job.members }
  | .build serial _ => { owned := job.members, claimed := job.members, making := [serial] }
  | .swap result => { owned := job.members, claimed := job.members, making := [result.serial] }
  | .retire _ rest => { owned := job.members, claimed := rest, leaving := rest }
  | .succeed _ => { owned := job.members }
  | .fail _ => { owned := job.members, claimed := job.members }
  | .release rest => { owned := rest, claimed := rest }
  | .consult k => k.stake
  | _ => {}

/-- What a thread has at stake. -/
def Thread.stake : Thread → Stake
  | .call task => task.stake
  | .merge job => job.stake

@[simp] theorem Scheduling.stake_conclude (all : Bool) (answer : Except Error Bool) :
    (conclude all answer).stake = {} := by
  unfold conclude
  split <;> rfl

theorem Call.stake_of_phase {call : Call} (h : call.party.tracked = []) : call.stake = {} := by
  rw [stake, h]
  rfl

theorem Consultation.owned_stake (k : Consultation) : k.stake.owned = k.claims := by
  cases k with
  | thinking call => rfl
  | scheduling call phase => cases phase <;> rfl

theorem Job.owned_stake (job : Job) : job.stake.owned = job.engaged ++ job.claims := by
  obtain ⟨members, phase⟩ := job
  cases phase with
  | consult k => exact k.owned_stake
  | _ => exact (List.append_nil _).symm

theorem Task.owned_stake (task : Task) : task.stake.owned = task.claims := by
  cases task with
  | consult k => exact k.owned_stake
  | _ => rfl

namespace Store

/-- What claims on the components of an index depend on. -/
def ledger (s : Store) : Ledger := ⟨s.board.roster, s.board.states, s.nextSerial⟩

variable {s s' t : Store} {stakes : List Stake} {aside : List Nat}

theorem balanced_schedules {phase phase' : Scheduling} {new : List Job}
    (h : s.ledger.Balanced (phase.stake :: stakes) aside)
    (hstep : s.Schedules phase s' phase' new) :
    s'.ledger.Balanced (phase'.stake :: (new.map Job.stake ++ stakes)) aside := by
  cases hstep with
  | clear => exact h
  | gather =>
    refine Ledger.balanced_see h fun c hc => ?_
    obtain ⟨id, hget⟩ := Roster.exists_get?_of_mem hc
    exact h.settled id c hget
  | claimNone =>
    rw [Scheduling.stake_conclude]
    exact h
  | claimedAll hmembers => exact h
  | claim hstate => exact Ledger.balanced_claim h rfl rfl rfl rfl rfl hstate
  | claimLost hstate =>
    exact Ledger.balanced_narrow h (List.nil_subset _) rfl rfl (List.Subset.refl _)
      (List.Sublist.refl _)
  | gaveUp =>
    rw [Scheduling.stake_conclude]
    exact h
  | giveUp hstate => exact Ledger.balanced_release h rfl rfl rfl rfl rfl
  | giveUpLost hstate =>
    exact absurd ((h.admits _ List.mem_cons_self).claimed _ List.mem_cons_self) hstate
  | enlist => exact h
  | submit hpool =>
    rw [Scheduling.stake_conclude]
    exact Ledger.balanced_cons_empty.2 h
  | refuse => exact h
  | withdraw => exact h
  | handedBack =>
    rw [Scheduling.stake_conclude]
    exact h
  | handBack hstate => exact Ledger.balanced_release h rfl rfl rfl rfl rfl
  | handBackLost hstate =>
    exact absurd ((h.admits _ List.mem_cons_self).claimed _ List.mem_cons_self) hstate
  | restore => exact h

theorem balanced_consults {k k' : Consultation} {new : List Job}
    (h : s.ledger.Balanced (k.stake :: stakes) aside) (hstep : s.Consults k s' k' new) :
    s'.ledger.Balanced (k'.stake :: (new.map Job.stake ++ stakes)) aside := by
  cases hstep with
  | think hcall =>
    obtain ⟨tracker, metrics, rfl, -, -⟩ := Call.step_frame hcall
    refine Ledger.balanced_see h fun c hc => ?_
    obtain ⟨xs, hxs, hmem⟩ := List.mem_flatten.1 hc
    rcases Call.party_step hcall with hwithin | htracked
    · obtain ⟨ys, hys, hinfix⟩ := hwithin.tracked xs hxs
      exact (h.admits _ List.mem_cons_self).seen c
        (List.mem_flatten.2 ⟨ys, hys, hinfix.subset hmem⟩)
    · rw [htracked, List.mem_singleton] at hxs
      obtain ⟨id, hget⟩ := Roster.exists_get?_of_mem (hxs ▸ hmem)
      exact h.settled id c hget
  | order horder =>
    rename_i call order
    obtain ⟨policy, full, phase⟩ := call
    cases phase with
    | ordered given =>
      obtain rfl := Option.some.inj horder
      cases given with
      | everything => exact h
      | run members => exact Ledger.balanced_see h fun c hc =>
          (h.admits _ List.mem_cons_self).seen c (List.mem_flatten_of_mem List.mem_cons_self hc)
    | _ => simp [Call.order?] at horder
  | schedule hphase hstep => exact balanced_schedules h hstep
  | reply =>
    rename_i call answer
    obtain ⟨metrics, result, hreply⟩ := Call.reply_frame s.board call answer
    rw [hreply]
    exact h

theorem stake_consult (full : Bool) (added : Component) (byMerge : Bool) :
    (s.consult full added byMerge).stake = {} := by
  refine Call.stake_of_phase ?_
  have hparty := party_consult (s := s) full added byMerge
  exact congrArg Party.tracked hparty

theorem stake_of_answer? {k : Consultation} {answer : Except Error Unit}
    (h : k.answer? = some answer) : k.stake = {} := by
  cases k with
  | thinking call =>
    refine Call.stake_of_phase ?_
    obtain ⟨policy, full, phase⟩ := call
    cases phase <;> first | rfl | simp [Consultation.answer?, Call.answer?] at h
  | scheduling call phase => simp [Consultation.answer?] at h

theorem balanced_calls {task task' : Task} {new : List Job}
    (h : s.ledger.Balanced (task.stake :: stakes) aside) (hstep : s.Calls task s' task' new) :
    s'.ledger.Balanced (task'.stake :: (new.map Job.stake ++ stakes)) aside := by
  cases hstep with
  | insert htask => rcases htask with rfl | rfl <;> exact h
  | flushFails => exact Ledger.balanced_raise h
  | flushNone => exact h
  | flush hserial =>
    rename_i files memory c
    have hnumber := Ledger.balanced_number h
    refine @Ledger.balanced_list { s.ledger with next := s.nextSerial + 1 } _ _
      (s.board.roster.prepend c) c [] ?_ (fun id other hother => ?_) (by simp)
    · rw [hserial]
      exact hnumber
    · rw [Roster.get?_prepend] at hother
      split at hother
      · exact .inl ⟨(Option.some.inj hother).symm, ‹_›⟩
      · exact .inr hother
  | report =>
    rw [Task.stake, stake_consult]
    exact h
  | request => exact h
  | requested htask => rcases htask with rfl | rfl <;> exact h
  | newestNone => exact h
  | newest =>
    rw [Task.stake, stake_consult]
    exact h
  | consulted hanswer =>
    rw [Task.stake, stake_of_answer? hanswer] at h
    exact h
  | consult hstep => exact balanced_consults h hstep
  | drain => exact h
  | draining htask => rcases htask with rfl | rfl <;> exact h
  | drowse htask => rcases htask with rfl | rfl <;> exact h
  | wake => exact h

end Store

namespace Job

/-- The members that a step of a merge leaves claimed for good, since it failed too often. -/
def parks (job : Job) (phase : Phase) : List (List Component) :=
  match job.phase, phase with
  | .fail _, .land => [job.members]
  | _, _ => []

/-- The members that a step of a merge leaves claimed for good, since it is broken off. -/
def breaks (job : Job) (phase : Phase) : List (List Component) :=
  match phase with
  | .lost => [job.members]
  | _ => []

theorem parks_phaseOf (job : Job) (f : Failure) : job.parks (phaseOf f) = [] := by
  obtain ⟨members, phase⟩ := job
  cases f <;> cases phase <;> rfl

@[simp] theorem stake_consult (members : List Component) (k : Consultation) :
    Job.stake ⟨members, .consult k⟩ = k.stake := rfl

end Job

namespace Store

variable {s s' t : Store} {stakes : List Stake} {aside : List Nat}

/-- A step of a merge keeps every claim in one hand. What it breaks off or parks is set aside. -/
theorem balanced_merges {job : Job} {phase : Job.Phase} {new : List Job}
    (h : s.ledger.Balanced (job.stake :: stakes) aside) (hstep : s.Merges job s' phase new) :
    s'.ledger.Balanced ({ job with phase }.stake :: (new.map Job.stake ++ stakes))
      (aside ++ (job.breaks phase ++ job.parks phase).flatten.map Component.serial) := by
  have hnone : ∀ {l : Ledger} {stakes : List Stake}, l.Balanced stakes aside →
      l.Balanced stakes (aside ++ ([] : List (List Component)).flatten.map Component.serial) := by
    intro l stakes h
    rwa [List.flatten_nil, List.map_nil, List.append_nil]
  have haside : ∀ {l : Ledger} {stakes : List Stake} {p : Stake}, l.Balanced (p :: stakes) aside →
      l.Balanced ({} :: stakes) (aside ++ [p.owned].flatten.map Component.serial) := by
    intro l stakes p h
    rw [List.flatten_singleton]
    exact Ledger.balanced_cons_empty.2 (Ledger.balanced_setAside h)
  have hfails : ∀ {members : List Component} {s : Store} (before : Job.Phase) (f : Failure),
      s.ledger.Balanced ({ owned := members, claimed := members } :: stakes) aside →
      s.ledger.Balanced (Job.stake ⟨members, Job.phaseOf f⟩ :: stakes)
        (aside ++ (Job.breaks ⟨members, before⟩ (Job.phaseOf f) ++
          Job.parks ⟨members, before⟩ (Job.phaseOf f)).flatten.map Component.serial) := by
    intro members s before f h
    rw [Job.parks_phaseOf, List.append_nil]
    cases f with
    | error e => exact hnone h
    | breach => exact haside h
  cases hstep with
  | readFails => exact hfails _ _ h
  | read => exact hnone h
  | number => exact hnone (Ledger.balanced_number h)
  | buildFails =>
    refine hfails _ _ ?_
    exact Ledger.balanced_narrow h (List.Subset.refl _) rfl rfl (List.Subset.refl _)
      (List.nil_sublist _)
  | build hrange hbuild =>
    refine hnone ?_
    rw [← Directory.serial_build hbuild] at h
    exact h
  | swapFails hreplace =>
    refine hnone ?_
    exact Ledger.balanced_narrow h (List.Subset.refl _) rfl rfl (List.Subset.refl _)
      (List.nil_sublist _)
  | swap hreplace =>
    rename_i members result roster
    refine hnone (Ledger.balanced_list h (fun id other hother => ?_)
      fun c hc id other hother hne => ?_)
    · rw [Roster.get?_replace hreplace] at hother
      split at hother
      · exact .inl ⟨(Option.some.inj hother).symm, ‹_›⟩
      · split at hother
        · contradiction
        · exact .inr hother
    · rw [Roster.get?_replace hreplace] at hother
      split at hother
      · exact absurd (Option.some.inj hother).symm hne
      · split at hother
        · contradiction
        · rename_i hid
          intro heq
          have hkeyed := h.keyed id other hother
          refine hid ?_
          rw [← hkeyed, Component.id, heq]
          exact List.mem_map_of_mem hc
  | retired => exact hnone h
  | retire hstate =>
    exact hnone (Ledger.balanced_retire h rfl rfl rfl (List.Subset.refl _) rfl rfl)
  | retireLost hstate =>
    exact absurd ((h.admits _ List.mem_cons_self).claimed _ List.mem_cons_self) hstate
  | succeed =>
    exact hnone (Ledger.balanced_cons_empty.2 (Ledger.balanced_forget h rfl rfl))
  | failRetry hretry => exact hnone h
  | failPark hpark => exact haside h
  | releasedNone => exact hnone h
  | released => exact hnone h
  | release hstate => exact hnone (Ledger.balanced_release h rfl rfl rfl rfl rfl)
  | releaseLost hstate =>
    exact absurd ((h.admits _ List.mem_cons_self).claimed _ List.mem_cons_self) hstate
  | consider =>
    refine hnone ?_
    rw [Job.stake_consult, stake_consult]
    exact h
  | consulted hanswer =>
    refine hnone ?_
    rw [Job.stake_consult, stake_of_answer? hanswer] at h
    exact h
  | consult hstep => exact hnone (balanced_consults h hstep)
  | land => exact hnone h
  | signal => exact hnone h

/-- The merges whose members a turn leaves claimed for good, since they failed too often. -/
def parks (s : Store) (τ : Turn) : List (List Component) :=
  ((s.mergeStep? τ).map fun (job, phase) => job.parks phase).getD []

/-- The merges whose members a turn leaves claimed for good, since they are broken off. -/
def breaks (s : Store) (τ : Turn) : List (List Component) :=
  ((s.mergeStep? τ).map fun (job, phase) => job.breaks phase).getD []

/-- A merge that is over or broken off has nothing at stake. -/
theorem balanced_remains {l : Ledger} {job : Job} (h : l.Balanced (job.stake :: stakes) aside) :
    l.Balanced ((Thread.remains (.merge job)).map Thread.stake ++ stakes) aside := by
  obtain ⟨members, phase⟩ := job
  cases phase with
  | «over» => exact Ledger.balanced_cons_empty.1 h
  | lost => exact Ledger.balanced_cons_empty.1 h
  | _ => exact h

/-- Every component that is merging is in one hand. -/
def Balanced (s : Store) (aside : List (List Component)) : Prop :=
  s.ledger.Balanced (s.threads.map Thread.stake) (aside.flatten.map Component.serial)

/-- A turn keeps every claim in one hand. -/
theorem balanced_turn {τ : Turn} {aside : List (List Component)} (hproper : τ.Proper)
    (h : s.Balanced aside) (hturn : s.turn τ = some t) :
    t.Balanced (aside ++ (s.breaks τ ++ s.parks τ)) := by
  have hquiet : τ.worker? = none → aside ++ (s.breaks τ ++ s.parks τ) = aside := by
    intro hworker
    rw [breaks, parks, mergeStep?_eq_none hworker]
    exact List.append_nil aside
  cases takes_of_turn hturn with
  | client hclient hworker htask hcalls hclients hbefore hafter =>
    rw [hquiet hworker]
    have hstep := balanced_calls (h.perm (hbefore.map Thread.stake) (List.Perm.refl _)) hcalls
    refine hstep.perm ?_ (List.Perm.refl _)
    have hperm := (hafter.map Thread.stake).symm
    rwa [List.map_cons, List.map_append, List.map_map] at hperm
  | work hworker hclient hjob hmerges hworkers hclients hbefore hafter =>
    rw [breaks, parks, mergeStep?_eq hturn hworker hjob hworkers]
    have hstep := balanced_merges (h.perm (hbefore.map Thread.stake) (List.Perm.refl _)) hmerges
    refine (balanced_remains hstep).perm ?_ ?_
    · have hperm := (hafter.map Thread.stake).symm
      rwa [List.map_append, List.map_append, List.map_map] at hperm
    · rw [← List.map_append, ← List.flatten_append]
      exact List.Perm.refl _
  | begin =>
    rename_i task
    rw [hquiet rfl]
    have hidle : task.stake = {} := by cases hproper <;> rfl
    refine (Ledger.balanced_cons_empty.2 h).perm ?_ (List.Perm.refl _)
    rw [← hidle, threads, threads, List.map_append, List.map_append, List.map_append,
      List.map_append, List.append_assoc]
    exact List.perm_middle.symm
  | idle hclient hworker hjobs hqueue =>
    rw [hquiet hworker]
    refine h.perm ?_ (List.Perm.refl _)
    exact ((hjobs.symm.map Thread.merge).append_left _).map Thread.stake

/-- A course keeps every claim in one hand. -/
theorem balanced_course {turns : List Turn} {aside : List (List Component)}
    (hproper : ∀ τ ∈ turns, τ.Proper) (h : s.Balanced aside) (hcourse : s.course turns = some t) :
    t.Balanced (aside ++ (s.trail breaks turns ++ s.trail parks turns)) := by
  induction turns generalizing s aside with
  | nil =>
    obtain rfl := Option.some.inj hcourse
    rwa [trail, trail, List.append_nil, List.append_nil]
  | cons τ rest ih =>
    obtain ⟨u, hturn, hrest⟩ := Option.bind_eq_some_iff.1 hcourse
    rw [List.forall_mem_cons] at hproper
    have hu := ih hproper.2 (balanced_turn hproper.1 h hturn) hrest
    refine Ledger.Balanced.perm hu (List.Perm.refl _) (List.Perm.map _ (List.Perm.flatten ?_))
    simp only [trail_cons _ hturn, List.append_assoc]
    refine List.Perm.append_left _ (List.Perm.append_left _ ?_)
    exact List.perm_append_comm_assoc ..

/-- An index that has just been opened, on components whose counts are the numbers of their files.
-/
def Opened (s : Store) : Prop :=
  ∃ options policy codec files components, (∀ c ∈ components, c.serial < Numeral.word) ∧
    ofComponents options policy codec files components = .ok s

theorem get?_foldl_append {components : List Component} {r : Roster} {id : Nat} {c : Component}
    (h : (components.foldl Roster.append r).get? id = some c) :
    c ∈ components ∧ c.id = id ∨ r.get? id = some c := by
  induction components generalizing r with
  | nil => exact .inr h
  | cons first rest ih =>
    rcases ih h with ⟨hmem, hid⟩ | hget
    · exact .inl ⟨List.mem_cons_of_mem _ hmem, hid⟩
    · rw [Roster.get?_append] at hget
      split at hget
      · obtain rfl := Option.some.inj hget
        exact .inl ⟨List.mem_cons_self, (Eq.symm ‹_›)⟩
      · exact .inr hget

/-- When an index has been opened, nothing is claimed. -/
theorem balanced_of_opened (h : s.Opened) : s.Balanced [] := by
  obtain ⟨options, policy, codec, files, components, hserials, hopen⟩ := h
  obtain ⟨-, -, -, rfl⟩ := ofComponents_eq_ok_iff.1 hopen
  have hlisted : ∀ {id : Nat} {c : Component},
      (components.foldl Roster.append {}).get? id = some c → c ∈ components ∧ c.id = id := by
    intro id c hget
    refine (get?_foldl_append hget).resolve_right ?_
    simp [Roster.get?]
  have hidle : Store.threads {
      options, policy, format := options.format codec, files
      memory := { budget := options.budget }
      board := { roster := components.foldl Roster.append {} }
      nextStamp := Recovery.above (components.map (·.range.max))
      nextSerial := Recovery.above (components.map Component.id)
      pool := .start options.threads } = [] := by
    rw [threads, Pool.jobs_start]
    rfl
  rw [Balanced, hidle]
  refine ⟨fun id c hget => (hlisted hget).2, fun id c hget => ⟨?_, List.not_mem_nil⟩,
    fun id c hget => by simp [ledger, Lifecycle.state], fun n => by simp [ledger, Lifecycle.state],
    fun n _ => rfl, by simp [Ledger.making], List.nodup_nil, by simp, List.nodup_nil,
    fun n hn => by simp [ledger, Lifecycle.state] at hn, fun n _ => List.not_mem_nil⟩
  obtain ⟨hmem, -⟩ := hlisted hget
  rw [← Component.id_of_lt (hserials c hmem)]
  exact Recovery.lt_above (List.mem_map_of_mem hmem)

end Store

/-- The number in the name of a file is one of a word. -/
theorem FileName.lt_of_id? {name : String} {id : Nat} (h : id? name = some id) :
    id < Numeral.word := by
  simp only [id?, bind, Option.bind_eq_some_iff] at h
  obtain ⟨stem, -, digits, -, hread⟩ := h
  have hpositive : 0 < Numeral.word := by decide
  cases hn : Numeral.read Numeral.word digits with
  | error e => simp [hn, Except.toOption] at hread
  | ok n =>
    simp only [hn, Except.toOption, Option.some.injEq] at hread
    subst hread
    unfold Numeral.read at hn
    split at hn
    · contradiction
    · contradiction
    · exact Numeral.readDigits_lt hpositive hn
    · exact Numeral.readDigits_lt hpositive hn

namespace Recovery

theorem id_lt_of_collect {folder : String} {format : Format} {names : List String}
    {d d' : Directory} {found : List Found} (h : collect folder format names d = (d', .ok found)) :
    ∀ f ∈ found, ∀ id, f.id = some id → id < Numeral.word := by
  induction names generalizing d d' found with
  | nil =>
    obtain ⟨-, hfound⟩ := Prod.mk.inj h
    obtain rfl := Except.ok.inj hfound
    simp
  | cons name names ih =>
    simp only [collect] at h
    split at h
    · exact ih h
    · split at h
      · exact ih h
      · split at h
        · simp at h
        · split at h
          · simp at h
          · split at h
            · simp at h
            · rename_i hrest
              obtain ⟨-, hfound⟩ := Prod.mk.inj h
              obtain rfl := Except.ok.inj hfound
              intro f hf id hid
              rcases List.mem_cons.1 hf with rfl | hf
              · exact FileName.lt_of_id? hid
              · exact ih hrest f hf id hid

theorem serial_lt_of_keep {found : List Found} {fresh : Nat} {kept components : List Component}
    {d d' : Directory} (hfound : ∀ f ∈ found, ∀ id, f.id = some id → id < Numeral.word)
    (hfresh : fresh < Numeral.word) (hkept : ∀ c ∈ kept, c.serial < Numeral.word)
    (h : keep found fresh kept d = (d', .ok components)) :
    ∀ c ∈ components, c.serial < Numeral.word := by
  induction found generalizing fresh kept d with
  | nil =>
    obtain ⟨-, hcomponents⟩ := Prod.mk.inj h
    obtain rfl := Except.ok.inj hcomponents
    exact hkept
  | cons f found ih =>
    rw [List.forall_mem_cons] at hfound
    simp only [keep] at h
    split at h
    · exact ih hfound.2 hfresh hkept h
    · split at h
      · simp at h
      · rename_i id next hnumbered
        split at h
        · simp at h
        · rename_i c hcomponent
          have hwords : id < Numeral.word ∧ next < Numeral.word := by
            unfold Found.numbered at hnumbered
            split at hnumbered
            · rename_i id' hid
              obtain ⟨rfl, rfl⟩ := Prod.mk.inj (Except.ok.inj hnumbered)
              exact ⟨hfound.1 _ hid, hfresh⟩
            · cases hword : Outcome.ofWord (fresh + 1) with
              | error e => simp [hword, Except.map] at hnumbered
              | ok n =>
                rw [hword] at hnumbered
                obtain ⟨rfl, rfl⟩ := Prod.mk.inj (Except.ok.inj hnumbered)
                obtain ⟨hlt, rfl⟩ := Outcome.ofWord_eq_ok_iff.1 hword
                exact ⟨hfresh, hlt⟩
          refine ih hfound.2 hwords.2 (fun other hother => ?_) h
          rcases List.mem_append.1 hother with hother | hother
          · exact hkept other hother
          · obtain rfl := List.mem_singleton.1 hother
            rw [(Archive.component_eq_ok hcomponent).1]
            exact hwords.1

end Recovery

namespace Store

/-- An index opened on a directory has just been opened. -/
theorem opened_of_openOn {options : Options} {codec : Codec} {d d' : Directory} {s : Store}
    (h : openOn options codec d = (d', .ok s)) : s.Opened := by
  obtain ⟨policy, components, -, hrecover, hopen⟩ := openOn_eq_ok_iff.1 h
  refine ⟨options, policy, codec, d', components, ?_, hopen⟩
  simp only [Recovery.recover] at hrecover
  split at hrecover
  · simp at hrecover
  · rename_i found hcollect
    split at hrecover
    · simp at hrecover
    · rename_i fresh hword
      obtain ⟨hlt, rfl⟩ := Outcome.ofWord_eq_ok_iff.1 hword
      have hids := Recovery.id_lt_of_collect hcollect
      refine Recovery.serial_lt_of_keep (fun f hf => ?_) hlt (by simp) hrecover
      exact hids f ((List.mergeSort_perm found Found.before).mem_iff.1 hf)

end Store

end Strata
