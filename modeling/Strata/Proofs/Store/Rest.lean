import Strata.Proofs.Store.Calm
import Strata.Proofs.Store.Service
import Strata.Proofs.Store.Sizes

/-!
# An index at rest

One producer calls an index, and after each call waits until no merge is in flight. While no merge
fails, one thread at most is at work at any time, and the last one that was has left nothing to be
merged. So at rest all components are free, and the policy is content with them; and no client ever
waits in a call of the policy. An index that is opened again on what is left of its directory at
rest lists components of the same sizes, and goes on from there.
-/

namespace Strata

theorem Consultation.owned_of_idle {k : Consultation} (h : k.Idle) : k.stake.owned = [] := by
  cases k with
  | thinking call => rfl
  | scheduling call phase =>
    cases phase with
    | answered answer => rfl
    | _ => exact h.elim

/-- An idle thread answers for no components. -/
theorem Thread.owned_of_idle {thread : Thread} (h : thread.Idle) : thread.stake.owned = [] := by
  cases thread with
  | call task =>
    cases task with
    | consult k => exact Consultation.owned_of_idle h
    | _ => rfl
  | merge job =>
    obtain ⟨members, phase⟩ := job
    cases phase with
    | consult k => exact Consultation.owned_of_idle h
    | land => rfl
    | signal => rfl
    | «over» => rfl
    | lost => rfl
    | _ => exact h.elim

/-- Something is left of a thread at work. -/
theorem Thread.mem_remains_of_work {thread : Thread} (hwork : ¬ thread.Idle) :
    thread ∈ thread.remains := by
  cases thread with
  | call task => exact List.mem_singleton_self _
  | merge job =>
    obtain ⟨members, phase⟩ := job
    cases phase with
    | «over» => exact absurd trivial hwork
    | lost => exact absurd trivial hwork
    | _ => exact List.mem_singleton_self _

namespace Store

variable {s t : Store} {seen : String → Bytes → Prop} {chart : Chart}
  {listed known : List Component}

/-- A component listed that no thread answers for is free. -/
theorem readable_of_unowned (hbalanced : s.Balanced []) {c : Component}
    (hc : c ∈ s.board.roster.newestFirst)
    (hnone : ∀ thread ∈ s.threads, c.serial ∉ thread.stake.owned.map Component.serial) :
    s.state c = .readable := by
  obtain ⟨id, hget⟩ := Roster.exists_get?_of_mem hc
  cases hstate : s.state c with
  | readable => rfl
  | inactive => exact absurd hstate (hbalanced.living id c hget)
  | writable => exact absurd hstate (hbalanced.unwritable c.serial)
  | merging =>
    have hheld := hbalanced.held c.serial hstate
    rw [Ledger.owned, List.flatten_nil, List.map_nil, List.append_nil, List.flatMap_map] at hheld
    obtain ⟨thread, hthread, hmem⟩ := List.mem_flatMap.1 hheld
    exact absurd hmem (hnone thread hthread)

/-- Beside idle threads, what a thread has not claimed is free. -/
theorem free_of_balanced (hbalanced : s.Balanced []) {thread : Thread} {others : List Thread}
    (hbefore : s.threads.Perm (thread :: others)) (hidle : ∀ other ∈ others, other.Idle) :
    s.Free thread := by
  intro c hc hunowned
  refine readable_of_unowned hbalanced hc fun other hother => ?_
  rcases List.mem_cons.1 (hbefore.mem_iff.1 hother) with rfl | hother
  · exact hunowned
  · rw [Thread.owned_of_idle (hidle other hother)]
    exact List.not_mem_nil

/-- One thread at most is at work, no merge has failed, and where no thread is at work nothing is to
be merged. -/
structure Tended (s : Store) : Prop where
  balanced : s.Balanced []
  lone : s.Lone
  staffed : s.pool.Staffed
  counts : s.Counts
  calm : ∀ thread ∈ s.threads, thread.Calm s.situation
  content : (∀ thread ∈ s.threads, thread.Idle) → s.situation.Content

theorem mem_jobs_of_mergeStep? {τ : Turn} {job : Job} {phase : Job.Phase}
    (hmerge : s.mergeStep? τ = some (job, phase)) : job ∈ s.pool.jobs := by
  simp only [mergeStep?, bind, Option.bind_eq_some_iff, pure, Option.some.injEq, Prod.mk.injEq]
    at hmerge
  obtain ⟨i, -, job', hjob, t, -, worker, -, rfl, -⟩ := hmerge
  obtain ⟨others, hothers⟩ := Pool.exists_jobs_perm hjob
  exact hothers.mem_iff.2 List.mem_cons_self

/-- A turn in which no merge fails sets no components aside. -/
theorem Tended.balanced_turn (h : s.Tended) {τ : Turn} (hproper : τ.Proper)
    (hfair : ∀ job phase, s.mergeStep? τ = some (job, phase) → phase.Fair)
    (hturn : s.turn τ = some t) : t.Balanced [] := by
  have hnothing : s.breaks τ ++ s.parks τ = [] := by
    rw [breaks, parks]
    cases hmerge : s.mergeStep? τ with
    | none => rfl
    | some step =>
      obtain ⟨⟨members, phase⟩, phase'⟩ := step
      have hphase := hfair _ _ hmerge
      have hjob := mem_jobs_of_mergeStep? hmerge
      have hcalm := h.calm (.merge ⟨members, phase⟩)
        (List.mem_append_right _ (List.mem_map_of_mem hjob))
      have hbreaks : Job.breaks ⟨members, phase⟩ phase' = [] := by
        cases phase' with
        | lost => exact hphase.elim
        | _ => rfl
      have hparks : Job.parks ⟨members, phase⟩ phase' = [] := by
        cases phase with
        | fail e => exact hcalm.elim
        | _ => rfl
      show Job.breaks ⟨members, phase⟩ phase' ++ Job.parks ⟨members, phase⟩ phase' = []
      rw [hbreaks, hparks]
      rfl
  have hbalanced := Store.balanced_turn hproper h.balanced hturn
  rwa [List.nil_append, hnothing] at hbalanced

/-- The calls that threads are at stay calm, and the last one at work leaves nothing to be merged.
-/
theorem Tended.calm_turn (h : s.Tended) (hjoins : s.policy.Joins) {τ : Turn} (hproper : τ.Proper)
    (hwaits : ∀ task, τ = .action (.call task) →
      task = .drain ∨ ∀ thread ∈ s.threads, thread.Idle)
    (hfair : ∀ job phase, s.mergeStep? τ = some (job, phase) → phase.Fair)
    (hturn : s.turn τ = some t) (hword : t.nextSerial ≤ Numeral.word) :
    (∀ thread ∈ t.threads, thread.Calm t.situation) ∧
      ((∀ thread ∈ t.threads, thread.Idle) → t.situation.Content) := by
  cases passes_of_turn hturn with
  | acts hacts hbefore hafter hsituation hflight hmerge horders =>
    rename_i thread thread' s' new others
    have hcalm := h.calm thread (hbefore.mem_iff.2 List.mem_cons_self)
    have hcalms : ∀ other ∈ others, other.Calm s.situation := fun other hother =>
      h.calm other (hbefore.mem_iff.2 (List.mem_cons_of_mem _ hother))
    rw [hsituation]
    by_cases hwork : thread.Idle
    · obtain ⟨hidle, rfl, hsame⟩ := idle_acts hacts hwork
      refine ⟨forall_threads hafter (calm_acts_of_idle hacts hwork hcalm) (by simp)
        (hsame ▸ hcalms), fun hall => hsame ▸ h.content fun other hother => ?_⟩
      rcases List.mem_cons.1 (hbefore.mem_iff.1 hother) with rfl | hother
      · exact hwork
      · exact hall other (hafter.mem_iff.2 (List.mem_append_right _ hother))
    · have hidle := h.lone.others_idle hbefore hwork
      have hfits := (h.lone.fits thread (hbefore.mem_iff.2 List.mem_cons_self)).resolve_left hwork
      have hnext : t.nextSerial = s'.nextSerial := congrArg (·.next) hsituation
      obtain ⟨hcalm', hcontent⟩ := calm_acts hjoins hacts h.lone.tidy hfits hcalm hwork
        (hnext ▸ hword) (fun job phase hstep => hfair job phase (hmerge.trans hstep))
        (fun members e => Pool.submit_ne_error h.staffed _ e)
        (free_of_balanced h.balanced hbefore hidle)
      refine ⟨forall_threads hafter hcalm' (fun job hjob => ?_) fun other hother =>
        Thread.calm_of_idle (hidle other hother) (hcalms other hother), fun hall => ?_⟩
      · rcases orders_acts hacts with rfl | ⟨all, members, -, rfl, -⟩
        · exact absurd hjob List.not_mem_nil
        · obtain rfl := List.mem_singleton.1 hjob
          trivial
      · refine hcontent ?_ ?_
        · rcases orders_acts hacts with hnone | ⟨all, members, -, rfl, -⟩
          · exact hnone
          · have hread : Thread.Idle (.merge { members }) := hall _ (hafter.mem_iff.2
              (List.mem_append_right _ List.mem_cons_self))
            exact hread.elim
        · by_contra hleft
          exact hleft (hall thread' (hafter.mem_iff.2
            (List.mem_append_left _ (Thread.mem_remains_of_work hleft))))
  | begin hcall hthreads hsituation hflight =>
    rename_i task
    have hbegins := hwaits task hcall
    subst hcall
    rw [hsituation]
    refine ⟨fun thread hthread => ?_, fun hall => h.content fun thread hthread =>
      hall thread (hthreads.mem_iff.2 (List.mem_cons_of_mem _ hthread))⟩
    rcases List.mem_cons.1 (hthreads.mem_iff.1 hthread) with rfl | hthread
    · rcases hbegins with rfl | hidle
      · trivial
      · have hcontent := h.content hidle
        cases hproper with
        | drain => trivial
        | _ => exact hcontent
    · exact h.calm thread hthread
  | stand hthreads hsituation hflight hmerge horders =>
    rw [hsituation]
    exact ⟨fun thread hthread => h.calm thread (hthreads.mem_iff.1 hthread), fun hall =>
      h.content fun thread hthread => hall thread (hthreads.mem_iff.2 hthread)⟩

theorem Tended.turn (h : s.Tended) (hjoins : s.policy.Joins) {τ : Turn} (hattends : s.Attends τ)
    (hturn : s.turn τ = some t) (hword : t.nextSerial ≤ Numeral.word) : t.Tended := by
  have hwaits : ∀ task, τ = .action (.call task) →
      task = .drain ∨ ∀ thread ∈ s.threads, thread.Idle := fun task hcall =>
    (hattends.waits task hcall).imp id fun hrests => hrests.idle h.counts
  obtain ⟨hcalm, hcontent⟩ :=
    h.calm_turn hjoins hattends.proper hwaits hattends.fair hturn hword
  have hbegin : ∀ task, τ = .action (.call task) →
      task.Idle ∨ ∀ thread ∈ s.threads, thread.Idle := fun task hcall =>
    (hwaits task hcall).imp (fun hdrain => by rw [hdrain]; trivial) id
  exact {
    balanced := h.balanced_turn hattends.proper hattends.fair hturn
    lone := h.lone.turn hjoins hattends.proper hbegin hturn hword
    staffed := staffed_turn h.staffed hattends.go
      (fun job phase hmerge => (hattends.fair job phase hmerge).ne_lost) hturn
    counts := h.counts.turn hattends.proper hturn
    calm := hcalm
    content := hcontent }

theorem Ranked.tidy (hr : Ranked s seen chart listed known) : s.situation.Tidy := by
  have hlist := Roster.newestFirst_of_lists hr.lists
  refine ⟨hlist.symm ▸ hr.lists, fun c hc => hr.orderly.low c (hr.orderly.listed c ?_)⟩
  exact hlist ▸ (show c ∈ s.board.roster.newestFirst from hc)

/-- An index may be opened on components among which nothing is to be merged. -/
theorem tended_of_openOn {options : Options} {codec : Codec} {d d' : Directory}
    (hopen : openOn options codec d = (d', .ok t)) (htidy : t.situation.Tidy)
    (hcontent : t.situation.Content) : t.Tended := by
  have hbalanced := balanced_of_opened (opened_of_openOn hopen)
  obtain ⟨policy, components, -, -, hcomponents⟩ := openOn_eq_ok_iff.1 hopen
  obtain ⟨-, -, -, ht⟩ := ofComponents_eq_ok_iff.1 hcomponents
  have hthreads : t.threads = [] := by
    subst ht
    simp [threads]
  exact {
    balanced := hbalanced
    lone := ⟨hthreads ▸ .nil, htidy, by simp [hthreads]⟩
    staffed := by
      subst ht
      exact Pool.staffed_start _
    counts := by simp [Counts, flight, hthreads]
    calm := by simp [hthreads]
    content := fun _ => hcontent }

/-- The states of an index that one producer uses, with the files seen since it was last opened, as
long as counts and stamps last. Each call begins at rest, or only waits for merges. No merge fails,
but a flush may. -/
inductive Attended (options : Options) (codec : Codec) :
    Store → (String → Bytes → Prop) → Prop where
  | opened {d : Directory} {s : Store} (hopen : openOn options codec {} = (d, .ok s)) :
      Attended options codec s s.files.Has
  | turn {s t : Store} {seen : String → Bytes → Prop} {τ : Turn}
      (hs : Attended options codec s seen) (hattends : s.Attends τ) (hfiles : ∀ d, τ ≠ .files d)
      (hturn : s.turn τ = some t) (hlasts : t.Lasts) :
      Attended options codec t (t.files.SeenWith seen)
  | reopened {s t : Store} {seen : String → Bytes → Prop} {d d' : Directory}
      (hs : Attended options codec s seen) (hrests : s.Rests) (hleft : s.Leaves seen d)
      (hopen : openOn options codec d = (d', .ok t)) : Attended options codec t t.files.Has

/-- An index in service is used by one producer. -/
theorem attended_of_serves {options : Options} {codec : Codec} {h : History}
    (hs : Serves options codec s h) : ∃ seen, Attended options codec s seen := by
  induction hs with
  | opened hopen => exact ⟨_, .opened hopen⟩
  | turn _ _ hattends hfiles hturn hroom ih =>
    obtain ⟨seen, hs⟩ := ih
    exact ⟨_, hs.turn hattends hfiles hturn ⟨hroom.serials, hroom.stamps⟩⟩

/-- What holds of an index that one producer uses: besides, its component files are in their places.
-/
structure Sustained (policy : Policy) (s : Store) (seen : String → Bytes → Prop) : Prop where
  policy : s.policy = policy
  shelved : ∃ chart listed known, Shelved s seen chart listed known
  tended : s.Tended

variable {options : Options} {codec : Codec} {policy : Policy}

/-- An index may be opened on charted files if nothing is to be merged of what is recovered. -/
theorem sustained_of_openOn (hvalid : options.validate = .ok policy) (hcovers : chart.Covers seen)
    (hword : ∀ n range, chart n = some range → n < Numeral.word) {d d' : Directory}
    (hsorted : d.Sorted) (hseen : d.Within seen)
    (hcontent : ∀ files components,
      Recovery.recover options.folder (options.format codec) d.names d = (files, .ok components) →
        policy.Content components)
    (hopen : openOn options codec d = (d', .ok t)) : Sustained policy t t.files.Has := by
  obtain ⟨chart', listed, hrecover, hshelved⟩ :=
    shelved_of_openOn hcovers hword hsorted hseen hopen
  have hpolicy : t.policy = policy := by
    obtain ⟨policy', components, hvalid', -, hcomponents⟩ := openOn_eq_ok_iff.1 hopen
    obtain ⟨-, -, -, rfl⟩ := ofComponents_eq_ok_iff.1 hcomponents
    exact Except.ok.inj (hvalid'.symm.trans hvalid)
  have hcontent' : t.policy.Content t.board.roster.newestFirst := by
    rw [hpolicy, Roster.newestFirst_of_lists hshelved.lists]
    exact hcontent _ _ hrecover
  exact ⟨hpolicy, ⟨_, _, _, hshelved⟩, tended_of_openOn hopen hshelved.tidy hcontent'⟩

/-- Where all threads are idle, no result waits to be put in place. -/
theorem not_pends_of_idle (hidle : ∀ thread ∈ s.threads, thread.Idle) (c : Component) :
    ¬ s.Pends c := by
  rintro ⟨⟨members, phase⟩, hjob, hphase⟩
  obtain rfl : phase = .swap c := hphase
  exact hidle _ (List.mem_append_right _ (List.mem_map_of_mem hjob))

/-- Where all threads are idle and no file waits to be removed, none is owed. -/
theorem not_owes_of_idle (hidle : ∀ thread ∈ s.threads, thread.Idle) (hretired : s.retired = [])
    (c : Component) : ¬ s.Owes c := by
  rintro (hc | ⟨⟨members, phase⟩, hjob, hc⟩)
  · rw [hretired] at hc
    exact List.not_mem_nil hc
  · have hmerge := hidle _ (List.mem_append_right _ (List.mem_map_of_mem hjob))
    cases phase with
    | swap result => exact hmerge.elim
    | retire result rest => exact hmerge.elim
    | _ => contradiction

theorem sustained_of_attended (hs : Attended options codec s seen)
    (hvalid : options.validate = .ok policy) (hjoins : policy.Joins) :
    Sustained policy s seen := by
  induction hs with
  | @opened d s hopen =>
    have hword : ∀ n range, Chart.blank n = some range → n < Numeral.word :=
      fun _ _ hn => nomatch hn
    refine sustained_of_openOn hvalid Chart.covers_blank hword Directory.sorted_empty
      (fun _ _ _ hfile => nomatch hfile) (fun files components hrecover => ?_) hopen
    obtain ⟨-, hcharted, -⟩ := Recovery.recover_charted Chart.covers_blank hword
      Directory.sorted_empty (fun _ _ _ hfile => nomatch hfile) hrecover
    obtain rfl := List.eq_nil_iff_forall_not_mem.2 fun c hc => nomatch hcharted c hc
    exact Policy.content_nil hjoins
  | @turn s t seen τ hs hattends hfiles hturn hlasts ih =>
    obtain ⟨chart, listed, known, hshelved⟩ := ih.shelved
    exact {
      policy := (settings_turn hturn).1.trans ih.policy
      shelved := hshelved.turn hattends.proper hfiles hturn hlasts
      tended := ih.tended.turn (ih.policy ▸ hjoins) hattends hturn (Nat.le_of_lt hlasts.serials) }
  | @reopened s t seen d d' hs hrests hleft hopen ih =>
    obtain ⟨chart, listed, known, hshelved⟩ := ih.shelved
    have hidle := hrests.idle ih.tended.counts
    have hcontent : s.policy.Content s.board.roster.newestFirst := ih.tended.content hidle
    rw [ih.policy, Roster.newestFirst_of_lists hshelved.lists] at hcontent
    exact sustained_of_openOn hvalid hshelved.covers (fun _ _ => hshelved.word) hleft.sorted
      hleft.within (fun files components hrecover => (Policy.content_congr
        (hshelved.sizes_of_recover (not_pends_of_idle hidle) hleft hrecover)).2 hcontent) hopen

/-- An index at rest that has removed the files of all components merged away may be opened again on
its directory as it is. -/
theorem leaves_files_of_rests (hs : Attended options codec s seen)
    (hvalid : options.validate = .ok policy) (hjoins : policy.Joins) (hrests : s.Rests)
    (hretired : s.retired = []) : s.Leaves seen s.files := by
  have hsustained := sustained_of_attended hs hvalid hjoins
  obtain ⟨chart, listed, known, hshelved⟩ := hsustained.shelved
  exact hshelved.leaves_files
    (not_owes_of_idle (hrests.idle hsustained.tended.counts) hretired)

/-- At rest, where one producer calls and no merge fails, all components are readable and no merge
is due: no run is selected, or fewer components are listed than the limit. No client ever waits in a
call of the policy. -/
theorem nothing_due_at_rest (hs : Attended options codec s seen)
    (hvalid : options.validate = .ok policy) (hjoins : policy.Joins) :
    (s.Rests →
      (∀ c ∈ s.board.roster.newestFirst, s.state c = .readable) ∧
      (∀ largest tolerance, policy = .runs largest tolerance →
        Run.select largest tolerance (s.board.roster.oldestFirst.map Component.size) = none ∧
        Run.Spares largest tolerance (s.board.roster.oldestFirst.map Component.size)) ∧
      ∀ limit, policy = .all limit → s.board.roster.newestFirst.length < limit) ∧
    ∀ call, .consult (.thinking call) ∈ s.clients →
      ∀ observed, call.phase ≠ .drowse observed ∧ call.phase ≠ .asleep observed := by
  have hsustained := sustained_of_attended hs hvalid hjoins
  have htended := hsustained.tended
  refine ⟨fun hrests => ?_, fun call hcall observed => ?_⟩
  · have hidle := hrests.idle htended.counts
    have hcontent : s.policy.Content s.board.roster.newestFirst := htended.content hidle
    rw [hsustained.policy] at hcontent
    refine ⟨fun c hc => readable_of_unowned htended.balanced hc fun thread hthread => ?_, ?_, ?_⟩
    · rw [Thread.owned_of_idle (hidle thread hthread)]
      exact List.not_mem_nil
    · rintro largest tolerance rfl
      exact ⟨hcontent, Run.spares_of_select (Nat.lt_of_lt_of_le Nat.zero_lt_two hjoins) hcontent⟩
    · rintro limit rfl
      exact hcontent
  · have hcalm : call.phase.Calm s.policy s.board.roster.newestFirst :=
      htended.calm _ (List.mem_append_left _ (List.mem_map_of_mem hcall))
    constructor <;> intro hphase <;> rw [hphase] at hcalm <;> exact hcalm

/-- Two components were flushed and merged: at rest the result is the only component, and free. -/
theorem merged_component_rests :
    ∃ s seen result, Attended pairs (.plain [.varying, .varying]) s seen ∧ s.Rests ∧
      s.board.roster.newestFirst = [result] ∧ result.range = ⟨0, 1⟩ ∧
      s.state result = .readable := by
  obtain ⟨_, s, h, _, _, result, hpairs⟩ := exists_pairs
  obtain ⟨seen, hs⟩ := attended_of_serves hpairs.after
  have hvalid : pairs.validate = .ok (.all 2) := by decide +kernel
  obtain ⟨hreadable, -⟩ := (nothing_due_at_rest hs hvalid (Nat.le_refl 2)).1 hpairs.rests
  refine ⟨s, seen, result, hs, hpairs.rests, hpairs.swapped, hpairs.ranges.2.2, hreadable result ?_⟩
  rw [hpairs.swapped]
  exact List.mem_singleton_self result

end Store

end Strata
