import Strata.Proofs.Store.Stuck

/-!
# Cascades of merges end

A merge that has ended calls the policy again, which may order another. Every merge of some, not
all, components leaves fewer of them; a merge of all is only made where it has been asked for; and a
merge that fails is tried again a few times, then its members are parked. So for each component
listed, there are at most as many merges as one may fail in a row.
-/

namespace Strata

/-- A turn in which no client begins a call. -/
def Turn.Follows : Turn → Prop
  | .action (.call _) => False
  | _ => True

theorem Turn.Follows.proper {τ : Turn} (h : τ.Follows) : τ.Proper := by
  cases τ with
  | action a =>
    cases a with
    | call task => exact h.elim
    | _ => trivial
  | _ => trivial

/-- How many merges can come for some components listed, if a merge of all has been asked for or
not, and after some failures in a row. -/
def Situation.bound (listed asked failures : Nat) : Nat :=
  (Store.retryLimit + 1) * (listed + asked - 1) - min failures Store.retryLimit

namespace Situation

variable (v : Situation)

/-- How many components are listed. -/
def listed : Nat := v.roster.newestFirst.length

/-- How many merges can still come, if merges of all components are going to be asked for. -/
def left (asked : Nat) : Nat := bound v.listed (asked + v.requested.toNat) v.failures

/-- How many merges can come once the one under way has failed. -/
def retries : Nat :=
  if v.failures < Store.retryLimit then bound v.listed v.requested.toNat (v.failures + 1) else 0

/-- How many merges can come once one of some components has succeeded. -/
def rest (members : Nat) : Nat := bound (v.listed + 1 - members) v.requested.toNat 0

end Situation

/-- How many merges can still come of a scheduling. -/
def Scheduling.left (v : Situation) : Scheduling → Nat
  | .clear => Situation.bound v.listed 1 v.failures
  | .gather => v.left 1
  | .claim all _ _ => v.left all.toNat
  | .enlist all _ => v.left all.toNat
  | .submit all _ => v.left all.toNat
  | _ => 0

def Consultation.left (v : Situation) : Consultation → Nat
  | .thinking call => Situation.bound v.listed (call.full || v.requested).toNat v.failures
  | .scheduling _ phase => phase.left v

def Task.left (v : Situation) : Task → Nat
  | .consult k => k.left v
  | .report _ => Situation.bound v.listed 1 v.failures
  | .newest => Situation.bound v.listed 1 v.failures
  | _ => Situation.bound (v.listed + 1) 1 v.failures

/-- How many merges can still come of a merge, itself apart. -/
def Job.left (v : Situation) (job : Job) : Nat :=
  match job.phase with
  | .read => max (v.rest job.members.length) v.retries
  | .number _ => max (v.rest job.members.length) v.retries
  | .build .. => max (v.rest job.members.length) v.retries
  | .swap _ => max (v.rest job.members.length) v.retries
  | .retire .. => v.rest 1
  | .succeed _ => v.rest 1
  | .fail _ => v.retries
  | .release _ => v.left 0
  | .consider _ => v.left 0
  | .consult k => k.left v
  | _ => 0

/-- How many merges can still come of a thread that is alone at work. -/
def Thread.left (v : Situation) : Thread → Nat
  | .call task => task.left v
  | .merge job => job.left v

namespace Situation

theorem bound_mono {listed listed' asked asked' failures : Nat} (hlisted : listed ≤ listed')
    (hasked : asked ≤ asked') : bound listed asked failures ≤ bound listed' asked' failures :=
  Nat.sub_le_sub_right (Nat.mul_le_mul_left _ (by omega)) _

/-- A merge counts for more than what can come after it. -/
theorem lt_left_of_engages {v : Situation} {all : Bool} {members : List Component}
    (hengages : v.Engages members) (hcovers : Scheduling.Covers v all members) :
    max (v.rest members.length) v.retries < v.left all.toNat := by
  have hsome : 0 < members.length := List.length_pos_iff.2 hengages.nonempty
  have hfew : members.length ≤ v.listed := hengages.stretch.length_le
  have hcount : members.length = v.listed ∧ all.toNat = 1 ∨ 2 ≤ members.length := by
    cases all with
    | true => exact .inl ⟨congrArg List.length hcovers, rfl⟩
    | false => exact .inr hcovers
  by_cases hretry : v.failures < 2 <;>
    simp only [rest, retries, left, bound, Store.retryLimit, hretry, if_true, if_false] <;> omega

end Situation

theorem Scheduling.left_conclude (v : Situation) (all : Bool) (answer : Except Error Bool) :
    (conclude all answer).left v = 0 := by
  unfold conclude
  split <;> rfl

namespace Store

variable {s s' t u : Store} {new : List Job} {thread thread' : Thread} {turns : List Turn}

/-- No step of a scheduling makes for more merges, and one that submits a merge makes for one less.
-/
theorem left_schedules {phase phase' : Scheduling} (h : s.Schedules phase s' phase' new)
    (hfits : phase.Fits s.situation) :
    phase'.left s'.situation ≤ phase.left s.situation ∧
      ∀ job ∈ new, job.left s'.situation < phase.left s.situation := by
  have hnone : ∀ {v : Situation} {n : Nat}, ∀ job ∈ ([] : List Job), job.left v < n := by simp
  have hconclude : ∀ {v : Situation} {n : Nat} {all : Bool} {answer : Except Error Bool},
      (Scheduling.conclude all answer).left v ≤ n := fun {v n all answer} => by
    rw [Scheduling.left_conclude]
    exact Nat.zero_le n
  cases h with
  | claimNone => exact ⟨hconclude, hnone⟩
  | gaveUp => exact ⟨hconclude, hnone⟩
  | giveUpLost => exact ⟨hconclude, hnone⟩
  | handedBack => exact ⟨hconclude, hnone⟩
  | handBackLost => exact ⟨hconclude, hnone⟩
  | submit hpool =>
    refine ⟨hconclude, fun job hjob => ?_⟩
    obtain rfl := List.mem_singleton.1 hjob
    exact Situation.lt_left_of_engages hfits.1 hfits.2
  | claimLost => exact ⟨Nat.zero_le _, hnone⟩
  | refuse => exact ⟨Nat.zero_le _, hnone⟩
  | _ => exact ⟨Nat.le_refl _, hnone⟩

theorem left_consults {k k' : Consultation} (h : s.Consults k s' k' new)
    (hfits : k.Fits s.situation) :
    (k'.Idle ∨ k'.left s'.situation ≤ k.left s.situation) ∧
      ∀ job ∈ new, job.left s'.situation < k.left s.situation := by
  cases h with
  | think hstep =>
    obtain ⟨tracker, metrics, rfl, hcall, -⟩ := Call.step_frame hstep
    rw [hcall]
    exact ⟨.inr (Nat.le_refl _), by simp⟩
  | order horder =>
    rename_i call order
    obtain ⟨policy, full, phase⟩ := call
    cases phase with
    | ordered given =>
      obtain rfl := Option.some.inj horder
      refine ⟨.inr ?_, by simp⟩
      cases given with
      | everything =>
        obtain rfl : full = true := hfits.2
        exact Nat.le_refl _
      | run members =>
        refine Situation.bound_mono (Nat.le_refl _) ?_
        show false.toNat + s.fullRequested.toNat ≤ (full || s.fullRequested).toNat
        cases full <;> cases s.fullRequested <;> decide
    | _ => simp [Call.order?] at horder
  | schedule hphase hstep =>
    obtain ⟨hleft, hnew⟩ := left_schedules hstep hfits.2
    exact ⟨.inr hleft, hnew⟩
  | reply =>
    rename_i call answer
    obtain ⟨metrics, result, hreply⟩ := Call.reply_frame s.board call answer
    rw [hreply]
    exact ⟨.inl trivial, by simp⟩

theorem left_calls {task task' : Task} (h : s.Calls task s' task' new)
    (htidy : s.situation.Tidy) (hfits : task.Fits s.situation)
    (hword : s'.nextSerial ≤ Numeral.word) :
    (task'.Idle ∨ task'.left s'.situation ≤ task.left s.situation) ∧
      ∀ job ∈ new, job.left s'.situation < task.left s.situation := by
  have hnone : ∀ {v : Situation} {n : Nat}, ∀ job ∈ ([] : List Job), job.left v < n := by simp
  cases h with
  | insert htask =>
    refine ⟨?_, hnone⟩
    rcases htask with rfl | rfl
    · exact .inr (Nat.le_refl _)
    · exact .inl trivial
  | flush hserial =>
    have hlist := Roster.newestFirst_of_lists (newestFirst_prepend htidy hserial hword)
    refine ⟨.inr (Nat.le_of_eq ?_), hnone⟩
    exact congrArg (fun n => Situation.bound n 1 s.failures) (congrArg List.length hlist)
  | report =>
    refine ⟨.inr (Situation.bound_mono (Nat.le_refl _) ?_), hnone⟩
    exact Bool.toNat_le _
  | request => exact ⟨.inr (Nat.le_refl _), hnone⟩
  | requested htask =>
    refine ⟨.inr ?_, hnone⟩
    rcases htask with rfl | rfl
    · exact Situation.bound_mono (Nat.le_succ _) (Nat.le_refl _)
    · exact Nat.le_refl _
  | newest => exact ⟨.inr (Nat.le_refl _), hnone⟩
  | consult hstep => exact left_consults hstep hfits
  | draining htask => rcases htask with rfl | rfl <;> exact ⟨.inl trivial, hnone⟩
  | drowse htask => rcases htask with rfl | rfl <;> exact ⟨.inl trivial, hnone⟩
  | _ => exact ⟨.inl trivial, hnone⟩

/-- The result of a merge is one component in the place of all members. -/
theorem listed_swap {members : List Component} {result : Component} {roster : Roster}
    (htidy : s.situation.Tidy) (hengages : s.situation.Engages members)
    (hspare : s.situation.Spare result.serial) (hword : s.nextSerial ≤ Numeral.word)
    (hreplace : s.board.roster.replace (members.map Component.id) result = .ok roster) :
    roster.newestFirst.length + members.length = s.board.roster.newestFirst.length + 1 := by
  obtain ⟨newer, older, hsplit, hlists⟩ := lists_swap htidy hengages hspare hword hreplace
  rw [Roster.newestFirst_of_lists hlists, hsplit]
  simp only [List.length_append, List.length_singleton]
  omega

theorem left_merges {job : Job} {phase : Job.Phase} (h : s.Merges job s' phase new)
    (htidy : s.situation.Tidy) (hfits : job.Fits s.situation)
    (hword : s'.nextSerial ≤ Numeral.word) :
    (Job.Idle { job with phase } ∨
        Job.left s'.situation { job with phase } ≤ job.left s.situation) ∧
      ∀ job' ∈ new, job'.left s'.situation < job.left s.situation := by
  have hnone : ∀ {v : Situation} {n : Nat}, ∀ job ∈ ([] : List Job), job.left v < n := by simp
  have hfails : ∀ {members : List Component} {v : Situation} (f : Failure) (n : Nat),
      Job.Idle ⟨members, Job.phaseOf f⟩ ∨
        Job.left v ⟨members, Job.phaseOf f⟩ ≤ max n v.retries := by
    intro members v f n
    cases f with
    | error e => exact .inr (Nat.le_max_right ..)
    | breach => exact .inl trivial
  cases h with
  | readFails => exact ⟨hfails .., hnone⟩
  | buildFails => exact ⟨hfails _ _, hnone⟩
  | swapFails hreplace => exact ⟨.inr (Nat.le_max_right ..), hnone⟩
  | swap hreplace =>
    rename_i members result roster
    have hlisted : roster.newestFirst.length + members.length =
        s.board.roster.newestFirst.length + 1 :=
      listed_swap htidy hfits.1 hfits.2 hword hreplace
    refine ⟨.inr (Nat.le_trans (Nat.le_of_eq ?_) (Nat.le_max_left ..)), hnone⟩
    refine congrArg (fun n => Situation.bound n s.fullRequested.toNat 0) ?_
    show roster.newestFirst.length = s.board.roster.newestFirst.length + 1 - members.length
    omega
  | retireLost hstate => exact absurd (hfits.2 _ List.mem_cons_self) hstate
  | succeed =>
    refine ⟨.inr (Nat.le_of_eq ?_), hnone⟩
    simp only [Job.left, Situation.left, Situation.rest, Nat.zero_add, Nat.add_sub_cancel]
    rfl
  | failRetry hretry =>
    refine ⟨.inr (Nat.le_of_eq ?_), hnone⟩
    simp only [Job.left, Situation.left, Nat.zero_add]
    exact (if_pos hretry).symm
  | failPark hpark => exact ⟨.inl trivial, hnone⟩
  | releasedNone => exact ⟨.inl trivial, hnone⟩
  | releaseLost hstate => exact ⟨.inl trivial, hnone⟩
  | consider =>
    refine ⟨.inr (Nat.le_of_eq ?_), hnone⟩
    simp only [Job.left, Situation.left, Nat.zero_add]
    exact congrArg (fun b : Bool => Situation.bound _ b.toNat _) (Bool.or_self _)
  | consulted hanswer => exact ⟨.inl trivial, hnone⟩
  | consult hstep => exact left_consults hstep hfits
  | land => exact ⟨.inl trivial, hnone⟩
  | signal => exact ⟨.inl trivial, hnone⟩
  | _ => exact ⟨.inr (Nat.le_refl _), hnone⟩

/-- No step of a thread makes for more merges, and one that submits a merge makes for one less. -/
theorem left_acts (h : s.Acts thread s' thread' new) (htidy : s.situation.Tidy)
    (hfits : thread.Fits s.situation) (hword : s'.nextSerial ≤ Numeral.word) :
    (thread'.Idle ∨ thread'.left s'.situation ≤ thread.left s.situation) ∧
      ∀ job ∈ new, job.left s'.situation < thread.left s.situation := by
  cases h with
  | call hcalls => exact left_calls hcalls htidy hfits hword
  | merge hmerges => exact left_merges hmerges htidy hfits hword

/-- A call of the policy is about to begin, and nobody else is at work. -/
structure Invoked (s : Store) (full : Bool) (added : Component) (byMerge : Bool) : Prop where
  tidy : s.situation.Tidy
  begun : ∃ thread others, s.threads.Perm (thread :: others) ∧
    (thread = .call (.consult (s.consult full added byMerge)) ∨
      ∃ members, thread = .merge ⟨members, .consult (s.consult full added byMerge)⟩) ∧
    ∀ other ∈ others, other.Idle

variable {full byMerge : Bool} {added : Component}

theorem Invoked.fits (h : s.Invoked full added byMerge) :
    ∀ thread ∈ s.threads, thread.Idle ∨ thread.Fits s.situation ∧
      thread.left s.situation ≤ (retryLimit + 1) * s.board.roster.newestFirst.length := by
  obtain ⟨thread, others, hperm, hthread, hidle⟩ := h.begun
  have hleft : (s.consult full added byMerge).left s.situation ≤
      (retryLimit + 1) * s.board.roster.newestFirst.length := by
    refine Nat.le_trans (Nat.sub_le ..) (Nat.mul_le_mul_left _ ?_)
    have hflag := Bool.toNat_le (full || s.fullRequested)
    show s.board.roster.newestFirst.length + (full || s.fullRequested).toNat - 1 ≤ _
    omega
  intro other hother
  rcases List.mem_cons.1 (hperm.mem_iff.1 hother) with rfl | hother
  · refine .inr ?_
    rcases hthread with rfl | ⟨members, rfl⟩
    · exact ⟨fits_consult .., hleft⟩
    · exact ⟨fits_consult .., hleft⟩
  · exact .inl (hidle other hother)

theorem Invoked.lone (h : s.Invoked full added byMerge) : s.Lone where
  once := by
    obtain ⟨thread, others, hperm, -, hidle⟩ := h.begun
    refine (pairwise_idle hperm).2 (List.pairwise_cons.2 ⟨fun other hother =>
      .inr (hidle other hother), ?_⟩)
    exact List.pairwise_of_forall_mem_list fun other hother _ _ => .inl (hidle other hother)
  tidy := h.tidy
  fits thread hthread := (h.fits thread hthread).imp id And.left

/-- While no call begins, at most one thread stays at work. -/
theorem Lone.course (h : s.Lone) (hjoins : s.policy.Joins) (hfollows : ∀ τ ∈ turns, τ.Follows)
    (hcourse : s.course turns = some t) (hword : t.nextSerial ≤ Numeral.word) :
    t.Lone ∧ t.policy = s.policy := by
  induction turns generalizing s with
  | nil =>
    obtain rfl := Option.some.inj hcourse
    exact ⟨h, rfl⟩
  | cons τ rest ih =>
    obtain ⟨u, hturn, hrest⟩ := Option.bind_eq_some_iff.1 hcourse
    rw [List.forall_mem_cons] at hfollows
    have hpolicy := (settings_turn hturn).1
    have hu : u.Lone := h.turn hjoins hfollows.1.proper
      (fun task hcall => absurd hfollows.1 (hcall ▸ id)) hturn
      (Nat.le_trans (nextSerial_course hrest) hword)
    obtain ⟨ht, hsame⟩ := ih hu (hpolicy ▸ hjoins) hfollows.2 hrest
    exact ⟨ht, hsame.trans hpolicy⟩

/-- The merges submitted so far, and those that can still come, are no more than a number. -/
structure Budget (s : Store) (most : Nat) (turns : List Turn) (t : Store) : Prop where
  few : (s.trail orders turns).length ≤ most
  left : ∀ thread ∈ t.threads, thread.Idle ∨
    (s.trail orders turns).length + thread.left t.situation ≤ most

theorem Budget.turn {most : Nat} (h : s.Budget most turns u) (hlone : u.Lone)
    (hcourse : s.course turns = some u) {τ : Turn} (hfollows : τ.Follows)
    (hturn : u.turn τ = some t) (hword : t.nextSerial ≤ Numeral.word) :
    s.Budget most (turns ++ [τ]) t := by
  have htrail := trail_concat orders τ hcourse
  cases passes_of_turn hturn with
  | acts hacts hbefore hafter hsituation hflight hmerge horders =>
    rename_i thread thread' u' new others
    have hothers : ∀ other ∈ others, other ∈ u.threads := fun other hother =>
      hbefore.mem_iff.2 (List.mem_cons_of_mem _ hother)
    by_cases hwork : thread.Idle
    · obtain ⟨hidle, rfl, hsame⟩ := idle_acts hacts hwork
      have hnone : u.orders τ = [] := by
        rcases horders with ⟨-, hnone⟩ | ⟨all, members, -, hnew, -⟩
        · exact hnone
        · contradiction
      rw [hnone, List.append_nil] at htrail
      refine ⟨htrail ▸ h.few, ?_⟩
      rw [htrail, hsituation, hsame]
      exact forall_threads hafter (.inl hidle) (by simp) fun other hother =>
        h.left other (hothers other hother)
    · have hthread := hbefore.mem_iff.2 List.mem_cons_self
      have hleft := (h.left thread hthread).resolve_left hwork
      have hidle := hlone.others_idle hbefore hwork
      have hfits := (hlone.fits thread hthread).resolve_left hwork
      have hnext : t.nextSerial = u'.nextSerial := congrArg (fun v => v.next) hsituation
      obtain ⟨hthread', hnew⟩ := left_acts hacts hlone.tidy hfits (hnext ▸ hword)
      rcases horders with ⟨rfl, hnone⟩ | ⟨all, members, -, rfl, hone, hdone⟩
      · rw [hnone, List.append_nil] at htrail
        refine ⟨htrail ▸ h.few, ?_⟩
        rw [htrail, hsituation]
        refine forall_threads hafter (hthread'.imp id fun hle => ?_) (by simp)
          fun other hother => .inl (hidle other hother)
        omega
      · have hless := hnew _ (List.mem_singleton_self _)
        have hlength : (s.trail orders (turns ++ [τ])).length =
            (s.trail orders turns).length + 1 := by
          rw [htrail, hone, List.length_append, List.length_singleton]
        refine ⟨by omega, ?_⟩
        rw [hlength, hsituation]
        refine forall_threads hafter (.inl hdone) (fun job hjob => .inr ?_)
          fun other hother => .inl (hidle other hother)
        obtain rfl := List.mem_singleton.1 hjob
        have hjob' : (Thread.merge { members }).left u'.situation < thread.left u.situation := hless
        omega
  | begin hcall => exact absurd hfollows (hcall ▸ id)
  | stand hthreads hsituation hflight hmerge horders =>
    rw [horders, List.append_nil] at htrail
    refine ⟨htrail ▸ h.few, fun thread hthread => ?_⟩
    rw [htrail, hsituation]
    exact h.left thread (hthreads.mem_iff.1 hthread)

/-- The merges that come of a call of the policy are bounded by the components listed. -/
theorem budget_course (h : s.Invoked full added byMerge) (hjoins : s.policy.Joins)
    (hfollows : ∀ τ ∈ turns, τ.Follows) (hcourse : s.course turns = some t)
    (hword : t.nextSerial ≤ Numeral.word) :
    s.Budget ((retryLimit + 1) * s.board.roster.newestFirst.length) turns t := by
  induction turns using List.reverseRecOn generalizing t with
  | nil =>
    obtain rfl := Option.some.inj hcourse
    refine ⟨Nat.zero_le _, fun thread hthread => (h.fits thread hthread).imp id fun hfits => ?_⟩
    rw [trail, List.length_nil, Nat.zero_add]
    exact hfits.2
  | append_singleton turns τ ih =>
    obtain ⟨u, hu, hturn⟩ := course_concat_eq_some_iff.1 hcourse
    rw [List.forall_mem_append, List.forall_mem_singleton] at hfollows
    have hword' := Nat.le_trans (nextSerial_turn hturn) hword
    have hlone := (h.lone.course hjoins hfollows.1 hu hword').1
    exact (ih hfollows.1 hu hword').turn hlone hu hfollows.2 hturn hword

/-- A merge of some components was submitted when so many were listed. -/
def Ordered (s : Store) (turns : List Turn) (all : Bool) (members : List Component)
    (listed : Nat) : Prop :=
  ∃ first τ u, first ++ [τ] <+: turns ∧ s.course first = some u ∧ u.orders τ = [(all, members)] ∧
    u.board.roster.newestFirst.length = listed

theorem Ordered.mono {all : Bool} {members : List Component} {listed : Nat} {more : List Turn}
    (h : s.Ordered turns all members listed) (hmore : turns <+: more) :
    s.Ordered more all members listed := by
  obtain ⟨first, τ, u, hfirst, hu⟩ := h
  exact ⟨first, τ, u, hfirst.trans hmore, hu⟩

end Store

/-- A merge was submitted when so many components were listed, one of all of them or of some. -/
def Job.Stems (s : Store) (turns : List Turn) (members : List Component) (listed : Nat) : Prop :=
  ∃ all, s.Ordered turns all members listed ∧ (all = false → 2 ≤ members.length)

/-- The list is as it was when a merge was submitted, or has the result in the place of its members.
-/
def Job.Traces (s : Store) (turns : List Turn) (listed : Nat) (job : Job) : Prop :=
  match job.phase with
  | .read => Stems s turns job.members listed
  | .number _ => Stems s turns job.members listed
  | .build .. => Stems s turns job.members listed
  | .swap _ => Stems s turns job.members listed
  | .retire .. => ∃ before, Stems s turns job.members before ∧
      listed + job.members.length = before + 1
  | .succeed _ => ∃ before, Stems s turns job.members before ∧
      listed + job.members.length = before + 1
  | _ => True

def Thread.Traces (s : Store) (turns : List Turn) (listed : Nat) : Thread → Prop
  | .call _ => True
  | .merge job => job.Traces s turns listed

theorem Thread.traces_of_idle {s : Store} {turns : List Turn} {listed : Nat} {thread : Thread}
    (h : thread.Idle) : thread.Traces s turns listed := by
  cases thread with
  | call task => trivial
  | merge job =>
    obtain ⟨members, phase⟩ := job
    cases phase with
    | consult k => trivial
    | land => trivial
    | signal => trivial
    | «over» => trivial
    | lost => trivial
    | _ => exact h.elim

theorem Job.Stems.mono {s : Store} {turns more : List Turn} {members : List Component}
    {listed : Nat} (h : Stems s turns members listed) (hmore : turns <+: more) :
    Stems s more members listed := by
  obtain ⟨all, hordered, hpair⟩ := h
  exact ⟨all, hordered.mono hmore, hpair⟩

theorem Thread.Traces.mono {s : Store} {turns more : List Turn} {listed : Nat} {thread : Thread}
    (h : thread.Traces s turns listed) (hmore : turns <+: more) : thread.Traces s more listed := by
  have hstems : ∀ {members : List Component}, Job.Stems s turns members listed →
      Job.Stems s more members listed := fun hstems => hstems.mono hmore
  cases thread with
  | call task => trivial
  | merge job =>
    obtain ⟨members, phase⟩ := job
    cases phase with
    | retire => exact h.imp fun before hbefore => ⟨hbefore.1.mono hmore, hbefore.2⟩
    | succeed => exact h.imp fun before hbefore => ⟨hbefore.1.mono hmore, hbefore.2⟩
    | read => exact hstems h
    | number => exact hstems h
    | build => exact hstems h
    | swap => exact hstems h
    | _ => trivial

namespace Store

variable {s s' t u : Store} {new : List Job} {thread thread' : Thread} {turns : List Turn}
variable {full byMerge : Bool} {added : Component}

/-- Only the step that puts the result of a merge in the place of its members changes the list. -/
theorem traces_acts {origin : Store} (h : s.Acts thread s' thread' new)
    (htidy : s.situation.Tidy) (hfits : thread.Fits s.situation)
    (hword : s'.nextSerial ≤ Numeral.word)
    (htraces : thread.Traces origin turns s.situation.listed) :
    thread'.Traces origin turns s'.situation.listed := by
  have hfails : ∀ {members : List Component} {listed : Nat} (f : Failure),
      Job.Traces origin turns listed ⟨members, Job.phaseOf f⟩ := by
    intro members listed f
    cases f <;> trivial
  cases h with
  | call hcalls => trivial
  | merge hmerges =>
    cases hmerges with
    | readFails => exact hfails _
    | buildFails => exact hfails _
    | read => exact htraces
    | number => exact htraces
    | build hrange hbuild => exact htraces
    | swap hreplace =>
      exact ⟨_, htraces, listed_swap htidy hfits.1 hfits.2 hword hreplace⟩
    | retired => exact htraces
    | retire hstate => exact htraces
    | _ => trivial

theorem fits_scheduling {v : Situation} {phase : Scheduling} (hfits : thread.Fits v)
    (hphase : thread.scheduling? = some phase) : phase.Fits v := by
  have hconsult : ∀ {k : Consultation}, k.Fits v → k.scheduling? = some phase → phase.Fits v := by
    intro k hk hsome
    cases k with
    | thinking call => simp [Consultation.scheduling?] at hsome
    | scheduling call before =>
      obtain rfl := Option.some.inj hsome
      exact hk.2
  cases thread with
  | call task =>
    cases task with
    | consult k => exact hconsult hfits hphase
    | _ => simp [Thread.scheduling?, Task.scheduling?] at hphase
  | merge job =>
    obtain ⟨members, before⟩ := job
    cases before with
    | consult k => exact hconsult hfits hphase
    | _ => simp [Thread.scheduling?, Job.scheduling?] at hphase

/-- A step that submits a merge leaves the list as it is. -/
theorem roster_of_submits (h : s.Acts thread s' thread' new) (hnew : new ≠ []) :
    s'.board.roster = s.board.roster := by
  have hconsults : ∀ {k k' : Consultation}, s.Consults k s' k' new →
      s'.board.roster = s.board.roster := by
    intro k k' hstep
    obtain ⟨full, count, states, tracker, metrics, pool, rfl⟩ := frame_consults hstep
    rfl
  cases h with
  | call hcalls =>
    cases hcalls with
    | consult hstep => exact hconsults hstep
    | _ => exact absurd rfl hnew
  | merge hmerges =>
    cases hmerges with
    | consult hstep => exact hconsults hstep
    | _ => exact absurd rfl hnew

theorem traces_turn (h : ∀ thread ∈ u.threads, thread.Traces s turns u.situation.listed)
    (hlone : u.Lone) (hcourse : s.course turns = some u) {τ : Turn} (hfollows : τ.Follows)
    (hturn : u.turn τ = some t) (hword : t.nextSerial ≤ Numeral.word) :
    ∀ thread ∈ t.threads, thread.Traces s (turns ++ [τ]) t.situation.listed := by
  have hmore : turns <+: turns ++ [τ] := List.prefix_append ..
  cases passes_of_turn hturn with
  | acts hacts hbefore hafter hsituation hflight hmerge horders =>
    rename_i thread thread' u' new others
    have hothers : ∀ other ∈ others, other ∈ u.threads := fun other hother =>
      hbefore.mem_iff.2 (List.mem_cons_of_mem _ hother)
    rw [hsituation]
    by_cases hwork : thread.Idle
    · obtain ⟨hidle, rfl, hsame⟩ := idle_acts hacts hwork
      rw [hsame]
      exact forall_threads hafter (Thread.traces_of_idle hidle) (by simp) fun other hother =>
        (h other (hothers other hother)).mono hmore
    · have hthread := hbefore.mem_iff.2 List.mem_cons_self
      have hfits := (hlone.fits thread hthread).resolve_left hwork
      have hnext : t.nextSerial = u'.nextSerial := congrArg (fun v => v.next) hsituation
      have hothers := hlone.others_idle hbefore hwork
      refine forall_threads hafter ?_ (fun job hjob => ?_) fun other hother =>
        Thread.traces_of_idle (hothers other hother)
      · exact (traces_acts hacts hlone.tidy hfits (hnext ▸ hword) (h thread hthread)).mono hmore
      · rcases horders with ⟨rfl, -⟩ | ⟨all, members, hphase, rfl, hone, -⟩
        · exact absurd hjob List.not_mem_nil
        · obtain rfl := List.mem_singleton.1 hjob
          have hlisted : u.situation.listed = u'.situation.listed :=
            congrArg (fun r => r.newestFirst.length) (roster_of_submits hacts (by simp)).symm
          refine ⟨all, ⟨turns, τ, u, List.prefix_rfl, hcourse, hone, hlisted⟩, ?_⟩
          rintro rfl
          exact (fits_scheduling hfits hphase).2
  | begin hcall => exact absurd hfollows (hcall ▸ id)
  | stand hthreads hsituation hflight hmerge horders =>
    rw [hsituation]
    exact fun thread hthread => (h thread (hthreads.mem_iff.1 hthread)).mono hmore

/-- While no call begins, every merge goes back to a moment when it was submitted. -/
theorem traces_course (h : s.Invoked full added byMerge) (hjoins : s.policy.Joins)
    (hfollows : ∀ τ ∈ turns, τ.Follows) (hcourse : s.course turns = some t)
    (hword : t.nextSerial ≤ Numeral.word) :
    ∀ thread ∈ t.threads, thread.Traces s turns t.situation.listed := by
  induction turns using List.reverseRecOn generalizing t with
  | nil =>
    obtain rfl := Option.some.inj hcourse
    obtain ⟨thread, others, hperm, hthread, hidle⟩ := h.begun
    intro other hother
    rcases List.mem_cons.1 (hperm.mem_iff.1 hother) with rfl | hother
    · rcases hthread with rfl | ⟨members, rfl⟩ <;> trivial
    · exact Thread.traces_of_idle (hidle other hother)
  | append_singleton turns τ ih =>
    obtain ⟨u, hu, hturn⟩ := course_concat_eq_some_iff.1 hcourse
    rw [List.forall_mem_append, List.forall_mem_singleton] at hfollows
    have hword' := Nat.le_trans (nextSerial_turn hturn) hword
    have hlone := (h.lone.course hjoins hfollows.1 hu hword').1
    exact traces_turn (ih hfollows.1 hu hword') hlone hu hfollows.2 hturn hword

end Store

/-- How a merge ends in its next step, if it does: it has succeeded, or it has failed. -/
def Job.outcome (job : Job) : List Bool :=
  match job.phase with
  | .succeed _ => [true]
  | .fail _ => [false]
  | _ => []

namespace Store

variable {s s' t u : Store} {new : List Job} {thread thread' : Thread} {turns : List Turn}
variable {full byMerge : Bool} {added : Component}

/-- The merges that a turn ends, each with success or not. -/
def outcomes (s : Store) (τ : Turn) : List Bool :=
  ((s.mergeStep? τ).map fun (job, _) => job.outcome).getD []

/-- What a step of a merge means for the failures in a row. -/
theorem outcome_merges {job : Job} {phase : Job.Phase} (h : s.Merges job s' phase new) :
    job.outcome = [] ∧ job.parks phase = [] ∧ s'.failures = s.failures ∨
      job.outcome = [true] ∧ job.parks phase = [] ∨
      job.outcome = [false] ∧ s'.failures = s.failures + 1 ∧
        (job.parks phase = [] ∧ s'.failures ≤ retryLimit ∨
          job.parks phase = [job.members] ∧ Job.Idle { job with phase } ∧ new = [] ∧
            s'.board.roster = s.board.roster ∧ s'.board.states = s.board.states) := by
  cases h with
  | succeed => exact .inr (.inl ⟨rfl, rfl⟩)
  | failRetry hretry => exact .inr (.inr ⟨rfl, rfl, .inl ⟨rfl, hretry⟩⟩)
  | failPark hpark => exact .inr (.inr ⟨rfl, rfl, .inr ⟨rfl, trivial, rfl, rfl, rfl⟩⟩)
  | readFails => exact .inl ⟨rfl, Job.parks_phaseOf _ _, rfl⟩
  | buildFails => exact .inl ⟨rfl, Job.parks_phaseOf _ _, rfl⟩
  | consult hstep =>
    obtain ⟨full, count, states, tracker, metrics, pool, rfl⟩ := frame_consults hstep
    exact .inl ⟨rfl, rfl, rfl⟩
  | _ => exact .inl ⟨rfl, rfl, rfl⟩

/-- Nobody but a merge counts failures. -/
theorem failures_calls {task task' : Task} (h : s.Calls task s' task' new) :
    s'.failures = s.failures := by
  cases h with
  | consult hstep =>
    obtain ⟨full, count, states, tracker, metrics, pool, rfl⟩ := frame_consults hstep
    rfl
  | _ => rfl

theorem phase_of_outcome {job : Job} (h : job.outcome = [false]) : ∃ e, job.phase = .fail e := by
  unfold Job.outcome at h
  split at h
  · simp at h
  · exact ⟨_, ‹_›⟩
  · simp at h

/-- How a turn ends a merge, if it does. One that fails is to be tried again, or parked. -/
theorem ends_of_turn {τ : Turn} (hu : u.Lone) (ht : t.Lone) (hturn : u.turn τ = some t) :
    u.outcomes τ = [] ∧ u.parks τ = [] ∧ t.failures = u.failures ∨
      u.outcomes τ = [true] ∧ u.parks τ = [] ∨
      u.outcomes τ = [false] ∧ t.failures = u.failures + 1 ∧ (∀ parked, ¬ u.Stuck parked) ∧
        (u.parks τ = [] ∧ t.failures ≤ retryLimit ∨
          ∃ members, u.parks τ = [members] ∧ t.Stuck members) := by
  have hquiet : u.mergeStep? τ = none → u.outcomes τ = [] ∧ u.parks τ = [] := by
    intro hnone
    rw [outcomes, parks, hnone]
    exact ⟨rfl, rfl⟩
  cases passes_of_turn hturn with
  | acts hacts hbefore hafter hsituation hflight hmerge horders =>
    rename_i others
    have hfailures := congrArg Situation.failures hsituation
    cases hacts with
    | call hcalls =>
      obtain ⟨hnone, hkept⟩ := hquiet hmerge
      exact .inl ⟨hnone, hkept, hfailures.trans (failures_calls hcalls)⟩
    | merge hmerges =>
      rename_i u' new job phase
      have houtcome : u.outcomes τ = job.outcome := by
        rw [outcomes, hmerge]
        rfl
      have hparks : u.parks τ = job.parks phase := by
        rw [parks, hmerge]
        rfl
      have hthread : .merge job ∈ u.threads := hbefore.mem_iff.2 List.mem_cons_self
      rw [houtcome, hparks]
      rcases outcome_merges hmerges with ⟨hnone, hkept, hsame⟩ | hdone | ⟨hfails, hcount, hend⟩
      · exact .inl ⟨hnone, hkept, hfailures.trans hsame⟩
      · exact .inr (.inl hdone)
      · obtain ⟨e, hphase⟩ := phase_of_outcome hfails
        have hwork : ¬ (Thread.merge job).Idle := by
          simp [Thread.Idle, Job.Idle, hphase]
        have hengages : u.situation.Engages job.members := by
          have hfits := (hu.fits _ hthread).resolve_left hwork
          simpa [Thread.Fits, Job.Fits, hphase] using hfits
        refine .inr (.inr ⟨hfails, hfailures.trans hcount, fun parked hstuck => ?_, ?_⟩)
        · have hstuck' := hstuck.threads _ hthread
          simp [Thread.Stuck, Job.Stuck, hphase] at hstuck'
        · rcases hend with ⟨hnone, hfew⟩ | ⟨hpark, hidle, rfl, hroster, hstates⟩
          · exact .inl ⟨hnone, Nat.le_trans (Nat.le_of_eq hfailures) hfew⟩
          · refine .inr ⟨job.members, hpark, ht.tidy, ?_, ?_⟩
            · have hkeeps : u.situation.Keeps job.members :=
                ⟨hengages.nonempty, fun c hc => hengages.stretch.subset hc, hengages.claimed⟩
              exact keeps_of_ledger hkeeps
                ((congrArg (fun v => v.roster) hsituation).trans hroster)
                ((congrArg (fun v => v.states) hsituation).trans hstates)
            · exact forall_threads hafter (Thread.stuck_of_idle hidle) (by simp)
                fun other hother => Thread.stuck_of_idle (hu.others_idle hbefore hwork other hother)
  | begin hcall hthreads hsituation =>
    subst hcall
    obtain ⟨hnone, hkept⟩ := hquiet (mergeStep?_eq_none rfl)
    exact .inl ⟨hnone, hkept, congrArg Situation.failures hsituation⟩
  | stand hthreads hsituation hflight hmerge horders =>
    obtain ⟨hnone, hkept⟩ := hquiet hmerge
    exact .inl ⟨hnone, hkept, congrArg Situation.failures hsituation⟩

/-- What the merges that have ended one after the other mean. -/
structure Streak (s : Store) (turns : List Turn) (t : Store) : Prop where
  /-- Failures in a row are counted. -/
  failed : ∀ n, List.replicate n false <:+ s.trail outcomes turns → n ≤ t.failures
  /-- There are no more than the limit. -/
  limited : ∀ n, List.replicate n false <:+: s.trail outcomes turns → n ≤ retryLimit + 1
  /-- Where the limit is reached, a merge is parked. -/
  reached : List.replicate (retryLimit + 1) false <:+: s.trail outcomes turns →
    s.trail parks turns ≠ []
  /-- A merge that is parked is so for good. -/
  parked : ∀ members ∈ s.trail parks turns, t.Stuck members

/-- Failures in a row at the end of a list. -/
theorem replicate_suffix_concat {n : Nat} {ends : List Bool} {last : Bool}
    (h : List.replicate n false <:+ ends ++ [last]) :
    n = 0 ∨ last = false ∧ ∃ m, n = m + 1 ∧ List.replicate m false <:+ ends := by
  cases n with
  | zero => exact .inl rfl
  | succ m =>
    rw [List.replicate_succ', List.suffix_concat_iff] at h
    rcases h with hnil | ⟨front, hfront, hsuffix⟩
    · simp at hnil
    · obtain ⟨rfl, hlast⟩ := List.append_inj' hfront rfl
      exact .inr ⟨(List.singleton_inj.1 hlast).symm, m, rfl, hsuffix⟩

/-- While no merge ends, a streak goes on as it was. -/
theorem Streak.stand (h : s.Streak turns u) {turns' : List Turn}
    (hends : s.trail outcomes turns' = s.trail outcomes turns)
    (hparks : s.trail parks turns' = s.trail parks turns) (hsame : t.failures = u.failures)
    (hstill : ∀ members ∈ s.trail parks turns, t.Stuck members) : s.Streak turns' t := by
  refine ⟨?_, ?_, ?_, ?_⟩
  · rw [hends, hsame]
    exact h.failed
  · rw [hends]
    exact h.limited
  · rw [hends, hparks]
    exact h.reached
  · rw [hparks]
    exact hstill

/-- After a merge that succeeds, no failures in a row are new. -/
theorem Streak.succeed (h : s.Streak turns u) {turns' : List Turn}
    (hends : s.trail outcomes turns' = s.trail outcomes turns ++ [true])
    (hparks : s.trail parks turns' = s.trail parks turns)
    (hstill : ∀ members ∈ s.trail parks turns, t.Stuck members) : s.Streak turns' t := by
  have hnone : ∀ n, List.replicate n false <:+ s.trail outcomes turns' → n = 0 := by
    intro n hn
    rw [hends] at hn
    rcases replicate_suffix_concat hn with rfl | ⟨hlast, -⟩
    · rfl
    · contradiction
  have hold : ∀ n, List.replicate n false <:+: s.trail outcomes turns' →
      List.replicate n false <:+: s.trail outcomes turns := by
    intro n hn
    rw [hends, List.infix_concat_iff] at hn
    rcases hn with hsuffix | hinfix
    · obtain rfl := hnone n (hends ▸ hsuffix)
      exact List.nil_infix
    · exact hinfix
  refine ⟨fun n hn => ?_, fun n hn => h.limited n (hold n hn), fun hn => ?_, ?_⟩
  · rw [hnone n hn]
    exact Nat.zero_le _
  · rw [hparks]
    exact h.reached (hold _ hn)
  · rw [hparks]
    exact hstill

/-- A merge that fails is one more failure in a row, and is parked where the limit is passed. -/
theorem Streak.fail (h : s.Streak turns u) {turns' : List Turn}
    (hends : s.trail outcomes turns' = s.trail outcomes turns ++ [false])
    (hcount : t.failures = u.failures + 1) (hfree : ∀ parked, ¬ u.Stuck parked)
    (hstill : ∀ members ∈ s.trail parks turns', t.Stuck members)
    (hpark : retryLimit < t.failures → s.trail parks turns' ≠ []) : s.Streak turns' t := by
  have hfailed : ∀ n, List.replicate n false <:+ s.trail outcomes turns' → n ≤ t.failures := by
    intro n hn
    rw [hends] at hn
    rcases replicate_suffix_concat hn with rfl | ⟨-, m, rfl, hm⟩
    · exact Nat.zero_le _
    · have hle := h.failed m hm
      omega
  -- a merge that fails is not stuck, so none was parked before
  have hfirst : ¬ List.replicate (retryLimit + 1) false <:+: s.trail outcomes turns := by
    intro hreached
    obtain ⟨members, hmem⟩ := List.exists_mem_of_ne_nil _ (h.reached hreached)
    exact hfree members (h.parked members hmem)
  refine ⟨hfailed, fun n hn => ?_, fun hn => hpark ?_, hstill⟩
  · rw [hends, List.infix_concat_iff] at hn
    rcases hn with hsuffix | hinfix
    · rcases replicate_suffix_concat hsuffix with rfl | ⟨-, m, rfl, hm⟩
      · exact Nat.zero_le _
      · have hle := h.limited m hm.isInfix
        have hne : m ≠ retryLimit + 1 := by
          rintro rfl
          exact hfirst hm.isInfix
        omega
    · exact h.limited n hinfix
  · rw [hends, List.infix_concat_iff] at hn
    exact hfailed _ (hends ▸ hn.resolve_right hfirst)

theorem Streak.turn (h : s.Streak turns u) (hu : u.Lone) (ht : t.Lone)
    (hcourse : s.course turns = some u) {τ : Turn} (hproper : τ.Proper)
    (hturn : u.turn τ = some t) (hword : t.nextSerial ≤ Numeral.word) :
    s.Streak (turns ++ [τ]) t := by
  have hends := trail_concat outcomes τ hcourse
  have hparks := trail_concat parks τ hcourse
  have hstill : ∀ members ∈ s.trail parks turns, t.Stuck members := fun members hmem =>
    ((h.parked members hmem).turn hproper hturn hword).1
  rcases ends_of_turn hu ht hturn with
    ⟨hnone, hkept, hsame⟩ | ⟨hdone, hkept⟩ | ⟨hfails, hcount, hfree, hend⟩
  · rw [hnone, List.append_nil] at hends
    rw [hkept, List.append_nil] at hparks
    exact h.stand hends hparks hsame hstill
  · rw [hdone] at hends
    rw [hkept, List.append_nil] at hparks
    exact h.succeed hends hparks hstill
  · rw [hfails] at hends
    rcases hend with ⟨hnone, hfew⟩ | ⟨last, hpark, hstuck⟩
    · rw [hnone, List.append_nil] at hparks
      exact h.fail hends hcount hfree (hparks ▸ hstill) fun hmany => absurd hmany (by omega)
    · rw [hpark] at hparks
      refine h.fail hends hcount hfree (fun members hmem => ?_) fun _ => by simp [hparks]
      rw [hparks, List.mem_append] at hmem
      rcases hmem with hmem | hmem
      · exact hstill members hmem
      · rwa [List.mem_singleton.1 hmem]

/-- While no call begins, failures in a row are counted, and end with a merge that is parked. -/
theorem streak_course (h : s.Lone) (hjoins : s.policy.Joins)
    (hfollows : ∀ τ ∈ turns, τ.Follows) (hcourse : s.course turns = some t)
    (hword : t.nextSerial ≤ Numeral.word) : s.Streak turns t := by
  induction turns using List.reverseRecOn generalizing t with
  | nil =>
    obtain rfl := Option.some.inj hcourse
    refine ⟨fun n hn => ?_, fun n hn => ?_, fun hn => ?_, by simp [trail]⟩
    · have hlength := hn.length_le
      rw [List.length_replicate] at hlength
      exact Nat.le_trans hlength (Nat.zero_le _)
    · have hlength := hn.length_le
      rw [List.length_replicate] at hlength
      exact Nat.le_trans hlength (Nat.zero_le _)
    · simp [trail, List.replicate_succ] at hn
  | append_singleton turns τ ih =>
    obtain ⟨u, hu, hturn⟩ := course_concat_eq_some_iff.1 hcourse
    have ht := (h.course hjoins hfollows hcourse hword).1
    rw [List.forall_mem_append, List.forall_mem_singleton] at hfollows
    have hword' := Nat.le_trans (nextSerial_turn hturn) hword
    exact (ih hfollows.1 hu hword').turn (h.course hjoins hfollows.1 hu hword').1 ht hu
      hfollows.2.proper hturn hword

/-- A merge that succeeds was ordered from the list it finds, which its result leaves with fewer
components unless the merge was one of all. -/
theorem Invoked.shrinks (hinvoked : s.Invoked full added byMerge) (hjoins : s.policy.Joins)
    {first : List Turn} (hfollows : ∀ σ ∈ first, σ.Follows) (hu : s.course first = some u)
    {τ : Turn} (hturn : u.turn τ = some t) (hword : u.nextSerial ≤ Numeral.word)
    {members : List Component} {result : Component} {phase : Job.Phase}
    (hstep : u.mergeStep? τ = some (⟨members, .succeed result⟩, phase)) :
    ∃ all listed, s.Ordered first all members listed ∧
      u.board.roster.newestFirst.length + members.length = listed + 1 ∧
      (all = false → u.board.roster.newestFirst.length < listed) := by
  have htraces := traces_course hinvoked hjoins hfollows hu hword
  cases passes_of_turn hturn with
  | acts hacts hbefore hafter hsituation hflight hmerge horders =>
    rename_i thread thread' u' new others
    rw [hstep] at hmerge
    cases hacts with
    | call hcalls => simp [Thread.mergeStep?] at hmerge
    | merge hmerges =>
      obtain ⟨rfl, -⟩ := Prod.mk.inj (Option.some.inj hmerge)
      obtain ⟨before, ⟨all, hordered, hpair⟩, hcount⟩ :=
        htraces _ (hbefore.mem_iff.2 List.mem_cons_self)
      refine ⟨all, before, hordered, hcount, fun hall => ?_⟩
      have htwo : 2 ≤ members.length := hpair hall
      have hcount' : u.board.roster.newestFirst.length + members.length = before + 1 := hcount
      omega
  | begin hcall hthreads hsituation hflight =>
    rw [mergeStep?_eq_none (hcall ▸ rfl)] at hstep
    contradiction
  | stand hthreads hsituation hflight hmerge horders =>
    rw [hmerge] at hstep
    contradiction

/-- What a call of the policy brings about comes to an end, however the merges end. Their number is
bounded by the failures that components allow, and one of a run that succeeds leaves fewer. At the
limit a merge is parked: its members stay claimed, and no merge is submitted any more. -/
theorem cascade_ends (hjoins : s.policy.Joins) (hinvoked : s.Invoked full added byMerge)
    (hfollows : ∀ τ ∈ turns, τ.Follows) (hcourse : s.course turns = some t)
    (hword : t.nextSerial ≤ Numeral.word) :
    (s.trail orders turns).length ≤ (retryLimit + 1) * s.board.roster.newestFirst.length ∧
    (∀ run, run <:+: s.trail outcomes turns → true ∉ run → run.length ≤ retryLimit + 1) ∧
    (∀ first τ u members result phase, first ++ [τ] <+: turns → s.course first = some u →
      u.mergeStep? τ = some (⟨members, .succeed result⟩, phase) →
      ∃ all listed, s.Ordered first all members listed ∧
        u.board.roster.newestFirst.length + members.length = listed + 1 ∧
        (all = false → u.board.roster.newestFirst.length < listed)) ∧
    (List.replicate (retryLimit + 1) false <:+: s.trail outcomes turns →
      s.trail parks turns ≠ []) ∧
    (∀ members ∈ s.trail parks turns, members ≠ [] ∧
      ∀ more u, (∀ τ ∈ more, τ.Proper) → t.course more = some u →
        u.nextSerial ≤ Numeral.word →
        (∀ c ∈ members, c ∈ u.board.roster.newestFirst ∧ u.state c = .merging) ∧
          t.trail orders more = []) := by
  have hstreak := streak_course hinvoked.lone hjoins hfollows hcourse hword
  refine ⟨(budget_course hinvoked hjoins hfollows hcourse hword).few, fun run hrun hnone => ?_,
    ?_, hstreak.reached, fun members hmem => ?_⟩
  · have hfalse : run = List.replicate run.length false := by
      refine List.eq_replicate_iff.2 ⟨rfl, fun b hb => ?_⟩
      cases b with
      | true => exact absurd hb hnone
      | false => rfl
    exact hstreak.limited _ (hfalse ▸ hrun)
  · intro first τ u members result phase hfirst hu hstep
    obtain ⟨rest, rfl⟩ := hfirst
    rw [List.append_assoc, course_append, hu, Option.bind_some] at hcourse
    have hword' := Nat.le_trans (nextSerial_course hcourse) hword
    have hfollows' : ∀ σ ∈ first, σ.Follows := fun σ hσ =>
      hfollows σ (List.mem_append_left _ (List.mem_append_left _ hσ))
    obtain ⟨v, hturn, -⟩ := Option.bind_eq_some_iff.1 hcourse
    exact hinvoked.shrinks hjoins hfollows' hu hturn hword' hstep
  · have hstuck := hstreak.parked members hmem
    refine ⟨hstuck.kept.nonempty, fun more u hproper hmore hlow => ?_⟩
    obtain ⟨hend, hnothing⟩ := hstuck.course hproper hmore hlow
    exact ⟨fun c hc => ⟨hend.kept.listed c hc, hend.kept.claimed c hc⟩, hnothing⟩

/-- Of two components without files, a call of the policy orders a merge, which cannot read them.
It is tried again twice; then both stay claimed, and no merge is submitted any more. -/
theorem third_failure_parks :
    let small (stamp : Nat) : Component :=
      { serial := stamp, range := .single stamp, size := 80 }
    let attempt (steps : Nat) : List Turn :=
      .action (.take 0) :: List.replicate steps (.action (.work 0))
    let turns : List Turn := List.replicate 12 (.action (.client 0)) ++
      (attempt 21 ++ (attempt 21 ++ attempt 4))
    ∃ o s t, ofComponents {} (.all 2) (.plain [.varying]) {} [small 1, small 0] = .ok o ∧
      s = { o with clients := [.consult (o.consult false (small 1) false)] } ∧
      s.course turns = some t ∧ s.trail outcomes turns = [false, false, false] ∧
      (s.trail orders turns).length ≤ 6 ∧ s.trail parks turns ≠ [] ∧
      ∀ members ∈ s.trail parks turns, members ≠ [] ∧
        ∀ more u, (∀ τ ∈ more, τ.Proper) → t.course more = some u →
          u.nextSerial ≤ Numeral.word →
          (∀ c ∈ members, c ∈ u.board.roster.newestFirst ∧ u.state c = .merging) ∧
            t.trail orders more = [] := by
  intro small attempt turns
  let call (o : Store) : Store :=
    { o with clients := [.consult (o.consult false (small 1) false)] }
  obtain ⟨o, hopen, hend⟩ : ∃ o,
      ofComponents {} (.all 2) (.plain [.varying]) {} [small 1, small 0] = .ok o ∧
      ((call o).course turns).map (fun t => (t.nextSerial, (call o).trail outcomes turns)) =
        some (2, [false, false, false]) :=
    ⟨_, rfl, by decide +kernel⟩
  obtain ⟨t, hcourse, hend⟩ := Option.map_eq_some_iff.1 hend
  obtain ⟨hnext, hfails⟩ := Prod.mk.inj hend
  obtain ⟨htidy, hlist⟩ := tidy_of_ofComponents (by decide) (by decide) hopen
  have hjobs : o.pool.jobs = [] := by
    obtain ⟨-, -, -, rfl⟩ := ofComponents_eq_ok_iff.1 hopen
    exact Pool.jobs_start _
  have hinvoked : (call o).Invoked false (small 1) false := by
    refine ⟨htidy, _, [], ?_, .inl rfl, by simp⟩
    rw [threads, hjobs]
    exact List.Perm.refl _
  have hjoins : (call o).policy.Joins := by
    obtain ⟨-, -, -, rfl⟩ := ofComponents_eq_ok_iff.1 hopen
    exact Nat.le_refl 2
  have hfollows : ∀ τ ∈ turns, τ.Follows := by
    have hattempt : ∀ steps, ∀ τ ∈ attempt steps, τ.Follows := by
      intro steps τ hτ
      rcases List.mem_cons.1 hτ with rfl | hτ
      · trivial
      · rw [List.eq_of_mem_replicate hτ]
        trivial
    simp only [turns, List.forall_mem_append]
    refine ⟨fun τ hτ => ?_, hattempt 21, hattempt 21, hattempt 4⟩
    rw [List.eq_of_mem_replicate hτ]
    trivial
  have hword : t.nextSerial ≤ Numeral.word := by
    rw [hnext]
    decide
  obtain ⟨hfew, -, -, hreached, hparked⟩ :=
    cascade_ends hjoins hinvoked hfollows hcourse hword
  refine ⟨o, _, t, hopen, rfl, hcourse, hfails, ?_, hreached ?_, hparked⟩
  · have hlist' : (call o).board.roster.newestFirst = [small 1, small 0] := hlist
    rwa [hlist'] at hfew
  · rw [hfails]
    exact List.infix_rfl

end Store

end Strata
