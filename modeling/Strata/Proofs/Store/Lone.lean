import Strata.Proofs.Store.Idle
import Strata.Proofs.Store.Intact

/-!
# One thread at work

While at most one thread is at work, nobody but that thread changes the list of components or claims
any. So a merge is made of components that stand together in the list there is when its result is
put in their place, all of them claimed; one that is not a merge of all components has at least two
members; and the list stays in order.
-/

namespace Strata

namespace Situation

/-- Each component listed has a number of its own, and the next count lies above theirs. -/
structure Tidy (v : Situation) : Prop where
  lists : v.roster.Lists v.roster.newestFirst
  low : ∀ c ∈ v.roster.newestFirst, c.serial < v.next

/-- The members of a merge stand together in the list, and all of them are claimed. -/
structure Engages (v : Situation) (members : List Component) : Prop where
  nonempty : members ≠ []
  stretch : members <:+: v.roster.newestFirst
  claimed : ∀ c ∈ members, v.states.state c.serial = .merging

/-- A count belongs to no component listed, and lies below the next one. -/
structure Spare (v : Situation) (serial : Nat) : Prop where
  low : serial < v.next
  fresh : ∀ c ∈ v.roster.newestFirst, c.serial ≠ serial

end Situation

variable {v : Situation}

/-- What a call of the policy that is alone at work has taken down, or orders. -/
def Phase.Fits (policy : Policy) (full : Bool) (listed : List Component) : Phase → Prop
  | .inspect xs _ => Call.newestFirst policy xs = listed
  | .ordered .everything => full = true
  | .ordered (.run members) => members <:+: listed ∧ 2 ≤ members.length
  | _ => True

/-- A merge of all components is one of all that are listed, any other has at least two members. -/
def Scheduling.Covers (v : Situation) (all : Bool) (members : List Component) : Prop :=
  if all then members = v.roster.newestFirst else 2 ≤ members.length

/-- What a scheduling that is alone at work has claimed, and will claim. -/
def Scheduling.Fits (v : Situation) : Scheduling → Prop
  | .claim all claimed rest => claimed ++ rest <:+: v.roster.newestFirst ∧
      Covers v all (claimed ++ rest) ∧ ∀ c ∈ claimed, v.states.state c.serial = .merging
  | .enlist all members => v.Engages members ∧ Covers v all members
  | .submit all members => v.Engages members ∧ Covers v all members
  | _ => True

def Consultation.Fits (v : Situation) : Consultation → Prop
  | .thinking call => call.policy = v.policy ∧
      call.phase.Fits call.policy call.full v.roster.newestFirst
  | .scheduling call phase => call.policy = v.policy ∧ phase.Fits v

def Task.Fits (v : Situation) : Task → Prop
  | .consult k => k.Fits v
  | _ => True

/-- What a merge that is alone at work holds, and the count of its result. -/
def Job.Fits (v : Situation) (job : Job) : Prop :=
  match job.phase with
  | .read => v.Engages job.members
  | .number _ => v.Engages job.members
  | .build serial _ => v.Engages job.members ∧ v.Spare serial
  | .swap result => v.Engages job.members ∧ v.Spare result.serial
  | .retire _ rest => (rest.map Component.serial).Nodup ∧
      ∀ c ∈ rest, v.states.state c.serial = .merging
  | .fail _ => v.Engages job.members
  | .consult k => k.Fits v
  | _ => True

def Thread.Fits (v : Situation) : Thread → Prop
  | .call task => task.Fits v
  | .merge job => job.Fits v

/-- A step of a call of the policy keeps to the list there is. -/
theorem Phase.fits_advances {b : Board} {policy : Policy} {full : Bool} {phase phase' : Phase}
    (hjoins : policy.Joins) (h : Advances b policy full phase phase')
    (hfits : phase.Fits policy full b.roster.newestFirst) :
    phase'.Fits policy full b.roster.newestFirst := by
  cases h with
  | wake => cases policy <;> trivial
  | counted => split <;> trivial
  | survey => exact Call.newestFirst_inspection policy b.roster
  | inspect => exact hfits
  | everything hfull => exact hfull
  | run hmembers hpair => exact ⟨hfits ▸ hmembers, hpair hjoins⟩
  | _ => trivial

theorem Scheduling.fits_conclude (all : Bool) (answer : Except Error Bool) :
    (conclude all answer).Fits v := by
  unfold conclude
  split <;> trivial

theorem Phase.fits_start (policy : Policy) (full : Bool) (added : Component) (byMerge : Bool)
    (listed : List Component) :
    (Call.start policy full added byMerge).phase.Fits policy full listed := by
  rcases Call.phase_start policy full added byMerge with h | ⟨-, h⟩ | h | ⟨-, h⟩ <;> rw [h] <;>
    trivial

namespace Store

variable {s s' t : Store} {new : List Job} {thread thread' : Thread}

theorem fits_consult (full : Bool) (added : Component) (byMerge : Bool) :
    (s.consult full added byMerge).Fits s.situation :=
  ⟨rfl, Phase.fits_start s.policy full added byMerge _⟩

theorem fits_schedules {phase phase' : Scheduling} (h : s.Schedules phase s' phase' new)
    (hfits : phase.Fits s.situation) :
    phase'.Fits s'.situation ∧ ∀ job ∈ new, job.Fits s'.situation := by
  have hnone : ∀ {v : Situation}, ∀ job ∈ ([] : List Job), job.Fits v := by simp
  cases h with
  | gather => exact ⟨⟨List.infix_rfl, rfl, by simp⟩, hnone⟩
  | claimNone => exact ⟨Scheduling.fits_conclude .., hnone⟩
  | claimedAll hmembers =>
    obtain ⟨hstretch, hcovers, hclaimed⟩ := hfits
    rw [List.append_nil] at hstretch hcovers
    exact ⟨⟨⟨hmembers, hstretch, hclaimed⟩, hcovers⟩, hnone⟩
  | claim hstate =>
    rename_i all claimed rest c
    obtain ⟨hstretch, hcovers, hclaimed⟩ := hfits
    have hsplit : claimed ++ [c] ++ rest = claimed ++ c :: rest := by simp
    refine ⟨⟨hsplit ▸ hstretch, hsplit ▸ hcovers, fun d hd => ?_⟩, hnone⟩
    show ((s.board.states.set c.serial .merging).state d.serial) = .merging
    rw [Lifecycle.state_set]
    split
    · rfl
    · rename_i hne
      rcases List.mem_append.1 hd with hd | hd
      · exact hclaimed d hd
      · exact absurd (congrArg Component.serial (List.mem_singleton.1 hd)) hne
  | gaveUp => exact ⟨Scheduling.fits_conclude .., hnone⟩
  | giveUpLost hstate => exact ⟨Scheduling.fits_conclude .., hnone⟩
  | enlist => exact ⟨hfits, hnone⟩
  | submit hpool =>
    refine ⟨Scheduling.fits_conclude .., fun job hjob => ?_⟩
    obtain rfl := List.mem_singleton.1 hjob
    exact hfits.1
  | handedBack => exact ⟨Scheduling.fits_conclude .., hnone⟩
  | handBackLost hstate => exact ⟨Scheduling.fits_conclude .., hnone⟩
  | _ => exact ⟨trivial, hnone⟩

theorem fits_consults {k k' : Consultation} (hjoins : s.policy.Joins)
    (h : s.Consults k s' k' new) (hfits : k.Fits s.situation) :
    k'.Fits s'.situation ∧ ∀ job ∈ new, job.Fits s'.situation := by
  cases h with
  | think hstep =>
    rename_i call call' board
    obtain ⟨hpolicy, hphase⟩ := hfits
    obtain ⟨tracker, metrics, rfl, hcall, -⟩ := Call.step_frame hstep
    have hadvances := Phase.advances_of_step hstep
    rw [hcall]
    exact ⟨⟨hpolicy, Phase.fits_advances (hpolicy ▸ hjoins) hadvances hphase⟩, by simp⟩
  | order horder =>
    rename_i call order
    obtain ⟨policy, full, phase⟩ := call
    obtain ⟨hpolicy, hphase⟩ := hfits
    refine ⟨⟨hpolicy, ?_⟩, by simp⟩
    cases phase with
    | ordered given =>
      obtain rfl := Option.some.inj horder
      cases given with
      | everything => trivial
      | run members => exact ⟨hphase.1, hphase.2, by simp⟩
    | _ => simp [Call.order?] at horder
  | schedule hphase hstep =>
    obtain ⟨hpolicy, hfits⟩ := hfits
    obtain ⟨hfits', hnew⟩ := fits_schedules hstep hfits
    obtain ⟨full, count, states, metrics, pool, rfl⟩ := frame_schedules hstep
    exact ⟨⟨hpolicy, hfits'⟩, hnew⟩
  | reply =>
    rename_i call answer
    obtain ⟨metrics, result, hreply⟩ := Call.reply_frame s.board call answer
    rw [hreply]
    exact ⟨⟨hfits.1, trivial⟩, by simp⟩

/-- The list stays in order where it stands still. -/
theorem tidy_of_roster {v w : Situation} (h : v.Tidy) (hroster : w.roster = v.roster)
    (hnext : v.next ≤ w.next) : w.Tidy where
  lists := by
    rw [hroster]
    exact h.lists
  low c hc := by
    rw [hroster] at hc
    exact Nat.lt_of_lt_of_le (h.low c hc) hnext

theorem tidy_consults {k k' : Consultation} (h : s.Consults k s' k' new)
    (htidy : s.situation.Tidy) : s'.situation.Tidy := by
  obtain ⟨full, count, states, tracker, metrics, pool, rfl⟩ := frame_consults h
  exact tidy_of_roster htidy rfl (Nat.le_refl _)

/-- A flush lists a component whose count is above all others. -/
theorem newestFirst_prepend (htidy : s.situation.Tidy) {c : Component}
    (hserial : c.serial = s.nextSerial) (hword : s.nextSerial < Numeral.word) :
    (s.board.roster.prepend c).Lists (c :: s.board.roster.newestFirst) := by
  refine Roster.lists_prepend htidy.lists fun hmem => ?_
  obtain ⟨d, hd, heq⟩ := List.mem_map.1 hmem
  have hlow : d.serial < s.nextSerial := htidy.low d hd
  rw [Component.id_of_lt (Nat.lt_trans hlow hword), Component.id_of_lt (hserial ▸ hword),
    hserial] at heq
  omega

/-- A call of a client keeps the list in order. -/
theorem tidy_calls {task task' : Task} (h : s.Calls task s' task' new)
    (htidy : s.situation.Tidy) (hword : s'.nextSerial ≤ Numeral.word) : s'.situation.Tidy := by
  cases h with
  | flush hserial =>
    rename_i files memory c
    have hlists := newestFirst_prepend htidy hserial hword
    have hlist := Roster.newestFirst_of_lists hlists
    refine ⟨?_, fun d hd => ?_⟩
    · show (s.board.roster.prepend c).Lists (s.board.roster.prepend c).newestFirst
      rw [hlist]
      exact hlists
    · have hd' : d ∈ (s.board.roster.prepend c).newestFirst := hd
      rw [hlist] at hd'
      show d.serial < s.nextSerial + 1
      rcases List.mem_cons.1 hd' with rfl | hd'
      · omega
      · exact Nat.lt_succ_of_lt (htidy.low d hd')
  | flushFails => exact tidy_of_roster htidy rfl (Nat.le_succ _)
  | consult hstep => exact tidy_consults hstep htidy
  | _ => exact tidy_of_roster htidy rfl (Nat.le_refl _)

theorem fits_calls {task task' : Task} (hjoins : s.policy.Joins) (h : s.Calls task s' task' new)
    (hfits : task.Fits s.situation) :
    task'.Fits s'.situation ∧ ∀ job ∈ new, job.Fits s'.situation := by
  have hnone : ∀ {v : Situation}, ∀ job ∈ ([] : List Job), job.Fits v := by simp
  cases h with
  | insert htask => rcases htask with rfl | rfl <;> exact ⟨trivial, hnone⟩
  | report => exact ⟨fits_consult .., hnone⟩
  | requested htask => rcases htask with rfl | rfl <;> exact ⟨trivial, hnone⟩
  | newest => exact ⟨fits_consult .., hnone⟩
  | consult hstep => exact fits_consults hjoins hstep hfits
  | draining htask => rcases htask with rfl | rfl <;> exact ⟨trivial, hnone⟩
  | drowse htask => rcases htask with rfl | rfl <;> exact ⟨trivial, hnone⟩
  | _ => exact ⟨trivial, hnone⟩

/-- The result of a merge takes the place of its members. -/
theorem lists_swap {members : List Component} {result : Component} {roster : Roster}
    (htidy : s.situation.Tidy) (hengages : s.situation.Engages members)
    (hspare : s.situation.Spare result.serial) (hword : s.nextSerial ≤ Numeral.word)
    (hreplace : s.board.roster.replace (members.map Component.id) result = .ok roster) :
    ∃ newer older, s.board.roster.newestFirst = newer ++ members ++ older ∧
      roster.Lists (newer ++ [result] ++ older) := by
  obtain ⟨newer, older, hsplit⟩ := hengages.stretch
  have hlists := htidy.lists
  rw [← hsplit] at hlists
  have hunused : result.id ∉ (newer ++ older).map Component.id := by
    intro hmem
    obtain ⟨c, hc, heq⟩ := List.mem_map.1 hmem
    have hc' : c ∈ s.situation.roster.newestFirst := by
      rw [← hsplit]
      rcases List.mem_append.1 hc with hc | hc <;> simp [hc]
    have hlow : c.serial < s.nextSerial := htidy.low c hc'
    have hlow' : result.serial < s.nextSerial := hspare.low
    rw [Component.id_of_lt (by omega), Component.id_of_lt (by omega)] at heq
    exact hspare.fresh c hc' heq
  obtain ⟨roster', hreplace', hroster⟩ := Roster.replace_eq_ok hlists hengages.nonempty hunused
  obtain rfl := Except.ok.inj (hreplace.symm.trans hreplace')
  exact ⟨newer, older, hsplit.symm, hroster⟩

theorem nodup_serials {components : List Component} {roster : Roster}
    (h : roster.Lists components) : (components.map Component.serial).Nodup := by
  have hids : components.map Component.id =
      (components.map Component.serial).map Numeral.wrapped := by
    rw [List.map_map]
    rfl
  have hnodup := h.nodup
  rw [hids] at hnodup
  exact hnodup.of_map

theorem fits_phaseOf {members : List Component} (hengages : v.Engages members) (f : Failure) :
    Job.Fits v ⟨members, Job.phaseOf f⟩ := by
  cases f with
  | error e => exact hengages
  | breach => trivial

/-- A merge that is alone at work puts its result in the place of its members. -/
theorem fits_merges {job : Job} {phase : Job.Phase} (hjoins : s.policy.Joins)
    (h : s.Merges job s' phase new) (htidy : s.situation.Tidy) (hfits : job.Fits s.situation)
    (hword : s'.nextSerial ≤ Numeral.word) :
    s'.situation.Tidy ∧ Job.Fits s'.situation { job with phase } ∧
      ∀ job ∈ new, job.Fits s'.situation := by
  have hnone : ∀ {v : Situation}, ∀ job ∈ ([] : List Job), job.Fits v := by simp
  cases h with
  | readFails => exact ⟨htidy, fits_phaseOf hfits _, hnone⟩
  | read => exact ⟨htidy, hfits, hnone⟩
  | number =>
    refine ⟨tidy_of_roster htidy rfl (Nat.le_succ _), ⟨⟨hfits.nonempty, hfits.stretch,
      hfits.claimed⟩, Nat.lt_succ_self _, fun c hc => ?_⟩, hnone⟩
    exact Nat.ne_of_lt (htidy.low c hc)
  | buildFails => exact ⟨htidy, fits_phaseOf hfits.1 _, hnone⟩
  | build hrange hbuild =>
    refine ⟨htidy, ⟨hfits.1, ?_⟩, hnone⟩
    rw [Directory.serial_build hbuild]
    exact hfits.2
  | swapFails hreplace => exact ⟨htidy, hfits.1, hnone⟩
  | swap hreplace =>
    rename_i members result roster
    obtain ⟨hengages, hspare⟩ := hfits
    obtain ⟨newer, older, hsplit, hlists⟩ := lists_swap htidy hengages hspare hword hreplace
    have hlist := Roster.newestFirst_of_lists hlists
    have hserials := nodup_serials htidy.lists
    refine ⟨⟨?_, fun c hc => ?_⟩, ⟨?_, hengages.claimed⟩, hnone⟩
    · show roster.Lists roster.newestFirst
      rw [hlist]
      exact hlists
    · have hc' : c ∈ roster.newestFirst := hc
      rw [hlist] at hc'
      simp only [List.mem_append, List.mem_singleton] at hc'
      have hlisted : ∀ d ∈ newer ++ members ++ older, d.serial < s.nextSerial := by
        rw [← hsplit]
        exact htidy.low
      rcases hc' with (hc' | rfl) | hc'
      · exact hlisted c (by simp [hc'])
      · exact hspare.low
      · exact hlisted c (by simp [hc'])
    · exact hserials.sublist (hengages.stretch.sublist.map Component.serial)
  | retired => exact ⟨htidy, trivial, hnone⟩
  | retire hstate =>
    rename_i members rest result c retired
    obtain ⟨hnodup, hclaimed⟩ := hfits
    rw [List.map_cons, List.nodup_cons] at hnodup
    refine ⟨tidy_of_roster htidy rfl (Nat.le_refl _), ⟨hnodup.2, fun d hd => ?_⟩, hnone⟩
    show ((s.board.states.set c.serial .inactive).state d.serial) = .merging
    rw [Lifecycle.state_set, if_neg]
    · exact hclaimed d (List.mem_cons_of_mem _ hd)
    · intro heq
      exact hnodup.1 (heq ▸ List.mem_map_of_mem hd)
  | retireLost hstate => exact absurd (hfits.2 _ List.mem_cons_self) hstate
  | consider => exact ⟨htidy, fits_consult .., hnone⟩
  | consult hstep =>
    obtain ⟨hfits', hnew⟩ := fits_consults hjoins hstep hfits
    exact ⟨tidy_consults hstep htidy, hfits', hnew⟩
  | _ => exact ⟨tidy_of_roster htidy rfl (Nat.le_refl _), trivial, hnone⟩

theorem fits_acts (hjoins : s.policy.Joins) (h : s.Acts thread s' thread' new)
    (htidy : s.situation.Tidy) (hfits : thread.Fits s.situation)
    (hword : s'.nextSerial ≤ Numeral.word) :
    s'.situation.Tidy ∧ thread'.Fits s'.situation ∧ ∀ job ∈ new, job.Fits s'.situation := by
  cases h with
  | call hcalls => exact ⟨tidy_calls hcalls htidy hword, fits_calls hjoins hcalls hfits⟩
  | merge hmerges => exact fits_merges hjoins hmerges htidy hfits hword

/-- At most one thread is at work, and what it has taken down is so. -/
structure Lone (s : Store) : Prop where
  once : s.threads.Pairwise fun a b => a.Idle ∨ b.Idle
  tidy : s.situation.Tidy
  fits : ∀ thread ∈ s.threads, thread.Idle ∨ thread.Fits s.situation

theorem pairwise_idle {threads others : List Thread} (hperm : threads.Perm others) :
    threads.Pairwise (fun a b => a.Idle ∨ b.Idle) ↔
      others.Pairwise fun a b => a.Idle ∨ b.Idle :=
  hperm.pairwise_iff fun h => h.symm

/-- Beside a thread at work all others are idle. -/
theorem Lone.others_idle (h : s.Lone) {others : List Thread}
    (hbefore : s.threads.Perm (thread :: others)) (hwork : ¬ thread.Idle) :
    ∀ other ∈ others, other.Idle := fun other hother =>
  ((List.pairwise_cons.1 ((pairwise_idle hbefore).1 h.once)).1 other hother).resolve_left hwork

theorem mem_remains {other : Thread} (h : other ∈ thread.remains) : other = thread := by
  cases thread with
  | call task => exact List.mem_singleton.1 h
  | merge job =>
    obtain ⟨job', hjob', rfl⟩ := List.mem_map.1 h
    rw [mem_workerOf hjob']

/-- The threads there are after a step: what is left of the one that took it, the merge that was
submitted, and the others. -/
theorem forall_threads_of_remains {p : Thread → Prop} {others : List Thread}
    (hafter : t.threads.Perm (thread'.remains ++ (new.map Thread.merge ++ others)))
    (hremains : ∀ left ∈ thread'.remains, p left) (hnew : ∀ job ∈ new, p (.merge job))
    (hothers : ∀ other ∈ others, p other) : ∀ thread ∈ t.threads, p thread := by
  intro thread hmem
  rcases List.mem_append.1 (hafter.mem_iff.1 hmem) with hmem | hmem
  · exact hremains thread hmem
  · rcases List.mem_append.1 hmem with hmem | hmem
    · obtain ⟨job, hjob, rfl⟩ := List.mem_map.1 hmem
      exact hnew job hjob
    · exact hothers thread hmem

theorem forall_threads {p : Thread → Prop} {others : List Thread}
    (hafter : t.threads.Perm (thread'.remains ++ (new.map Thread.merge ++ others)))
    (hthread : p thread') (hnew : ∀ job ∈ new, p (.merge job))
    (hothers : ∀ other ∈ others, p other) : ∀ thread ∈ t.threads, p thread :=
  forall_threads_of_remains hafter (fun _ hleft => mem_remains hleft ▸ hthread) hnew hothers

/-- What holds of a thread as it begins, and is kept by its steps as long as something of it is
left, holds of all threads at all times. -/
theorem forall_threads_turn {p : Thread → Prop} {τ : Turn}
    (hacts : ∀ {thread s' thread' new}, s.Acts thread s' thread' new → p thread →
      (∀ left ∈ thread'.remains, p left) ∧ ∀ job ∈ new, p (.merge job))
    (hbegins : ∀ task : Task, task.Begins → p (.call task)) (hproper : τ.Proper)
    (hturn : s.turn τ = some t) (h : ∀ thread ∈ s.threads, p thread) :
    ∀ thread ∈ t.threads, p thread := by
  cases passes_of_turn hturn with
  | acts hstep hbefore hafter =>
    have hall := List.forall_mem_cons.1 fun other hother => h other (hbefore.mem_iff.2 hother)
    obtain ⟨hremains, hnew⟩ := hacts hstep hall.1
    exact forall_threads_of_remains hafter hremains hnew hall.2
  | begin hcall hthreads =>
    subst hcall
    intro thread hthread
    rcases List.mem_cons.1 (hthreads.mem_iff.1 hthread) with rfl | hold
    · exact hbegins _ hproper
    · exact h thread hold
  | stand hthreads =>
    intro thread hthread
    exact h thread (hthreads.mem_iff.1 hthread)

/-- No step changes the policy or the format of files. -/
theorem settings_acts (h : s.Acts thread s' thread' new) :
    s'.policy = s.policy ∧ s'.format = s.format := by
  have hconsults : ∀ {k k' : Consultation}, s.Consults k s' k' new →
      s'.policy = s.policy ∧ s'.format = s.format := by
    intro k k' hstep
    obtain ⟨full, count, states, tracker, metrics, pool, rfl⟩ := frame_consults hstep
    exact ⟨rfl, rfl⟩
  cases h with
  | call hcalls =>
    cases hcalls with
    | consult hstep => exact hconsults hstep
    | _ => exact ⟨rfl, rfl⟩
  | merge hmerges =>
    cases hmerges with
    | consult hstep => exact hconsults hstep
    | _ => exact ⟨rfl, rfl⟩

theorem pairwise_remains (thread : Thread) {p : Thread → Thread → Prop} :
    thread.remains.Pairwise p := by
  cases thread with
  | call task => exact List.pairwise_singleton ..
  | merge job =>
    rw [Thread.remains]
    cases (workerOf job).job? with
    | none => exact .nil
    | some job' => exact List.pairwise_singleton ..

/-- An idle thread in the place of another, or of none, leaves at most one at work. -/
theorem pairwise_append_idle {front others : List Thread}
    (hfront : front.Pairwise fun a b => a.Idle ∨ b.Idle)
    (hothers : others.Pairwise fun a b => a.Idle ∨ b.Idle)
    (hidle : (∀ thread ∈ front, thread.Idle) ∨ ∀ thread ∈ others, thread.Idle) :
    (front ++ others).Pairwise fun a b => a.Idle ∨ b.Idle :=
  List.pairwise_append.2 ⟨hfront, hothers, fun a ha b hb =>
    hidle.imp (fun h => h a ha) fun h => h b hb⟩

/-- A step of the thread at work leaves at most one at work: itself, or the merge it submits. -/
theorem Lone.acts (h : s.Lone) (hjoins : s.policy.Joins) {others : List Thread}
    (hacts : s.Acts thread s' thread' new) (hbefore : s.threads.Perm (thread :: others))
    (hafter : t.threads.Perm (thread'.remains ++ (new.map Thread.merge ++ others)))
    (hsituation : t.situation = s'.situation) (hword : t.nextSerial ≤ Numeral.word) : t.Lone := by
  have hothers : others.Pairwise fun a b => a.Idle ∨ b.Idle :=
    (List.pairwise_cons.1 ((pairwise_idle hbefore).1 h.once)).2
  by_cases hwork : thread.Idle
  · obtain ⟨hidle, rfl, hsame⟩ := idle_acts hacts hwork
    rw [hsame] at hsituation
    refine ⟨(pairwise_idle hafter).2 (pairwise_append_idle (pairwise_remains _) hothers
      (.inl fun r hr => mem_remains hr ▸ hidle)), hsituation ▸ h.tidy, ?_⟩
    rw [hsituation]
    exact forall_threads hafter (.inl hidle) (by simp) fun other hother =>
      h.fits other (hbefore.mem_iff.2 (List.mem_cons_of_mem _ hother))
  · have hidle := h.others_idle hbefore hwork
    have hfits := (h.fits thread (hbefore.mem_iff.2 List.mem_cons_self)).resolve_left hwork
    have hnext : t.nextSerial = s'.nextSerial := congrArg (·.next) hsituation
    obtain ⟨htidy, hfits', hnew⟩ := fits_acts hjoins hacts h.tidy hfits (hnext ▸ hword)
    refine ⟨(pairwise_idle hafter).2 ?_, hsituation ▸ htidy, ?_⟩
    · rcases orders_acts hacts with rfl | ⟨all, members, -, rfl, hdone⟩
      · exact pairwise_append_idle (pairwise_remains _) hothers (.inr hidle)
      · refine pairwise_append_idle (pairwise_remains _) ?_
          (.inl fun r hr => mem_remains hr ▸ hdone)
        exact pairwise_append_idle (List.pairwise_singleton ..) hothers (.inr hidle)
    · rw [hsituation]
      exact forall_threads hafter (.inr hfits') (fun job hjob => .inr (hnew job hjob))
        fun other hother => .inl (hidle other hother)

theorem fits_of_begins {task : Task} (h : task.Begins) : task.Fits v := by
  cases h <;> trivial

/-- At most one thread is at work as long as calls begin only where none is, those apart that only
wait for merges. -/
theorem Lone.turn (h : s.Lone) (hjoins : s.policy.Joins) {τ : Turn} (hproper : τ.Proper)
    (hbegin : ∀ task, τ = .action (.call task) →
      task.Idle ∨ ∀ thread ∈ s.threads, thread.Idle)
    (hturn : s.turn τ = some t) (hword : t.nextSerial ≤ Numeral.word) : t.Lone := by
  cases passes_of_turn hturn with
  | acts hacts hbefore hafter hsituation hflight hmerge horders =>
    exact h.acts hjoins hacts hbefore hafter hsituation hword
  | begin hcall hthreads hsituation hflight =>
    rename_i task
    have hidle := hbegin task hcall
    subst hcall
    refine ⟨(pairwise_idle hthreads).2 (pairwise_append_idle (List.pairwise_singleton ..) h.once
      (hidle.imp (fun htask thread hmem => List.mem_singleton.1 hmem ▸ htask) id)),
      hsituation ▸ h.tidy, fun thread hmem => ?_⟩
    rw [hsituation]
    rcases List.mem_cons.1 (hthreads.mem_iff.1 hmem) with rfl | hmem
    · exact .inr (fits_of_begins hproper)
    · exact h.fits thread hmem
  | stand hthreads hsituation hflight hmerge horders =>
    refine ⟨(pairwise_idle hthreads).2 h.once, hsituation ▸ h.tidy, fun thread hmem => ?_⟩
    rw [hsituation]
    exact h.fits thread (hthreads.mem_iff.1 hmem)

/-- No turn changes the policy or the format of files. -/
theorem settings_turn {τ : Turn} (hturn : s.turn τ = some t) :
    t.policy = s.policy ∧ t.format = s.format := by
  cases takes_of_turn hturn with
  | client hclient hworker htask hcalls =>
    obtain ⟨hpolicy, hformat⟩ := settings_acts (.call hcalls)
    exact ⟨hpolicy, hformat⟩
  | work hworker hclient hjob hmerges =>
    obtain ⟨hpolicy, hformat⟩ := settings_acts (.merge hmerges)
    exact ⟨hpolicy, hformat⟩
  | begin => exact ⟨rfl, rfl⟩
  | idle => exact ⟨rfl, rfl⟩

/-- When an index has been opened, its components are listed in order. -/
theorem tidy_of_ofComponents {options : Options} {policy : Policy} {codec : Codec}
    {files : Directory} {components : List Component}
    (hserials : (components.map Component.serial).Nodup)
    (hword : ∀ c ∈ components, c.serial < Numeral.word)
    (hopen : ofComponents options policy codec files components = .ok s) :
    s.situation.Tidy ∧ s.board.roster.newestFirst = components := by
  have hids : ∀ c ∈ components, c.id = c.serial := fun c hc => Component.id_of_lt (hword c hc)
  have hbelow : ∀ c ∈ components, c.serial < s.nextSerial := fun c hc =>
    hids c hc ▸ (below_of_ofComponents hopen hc).1
  obtain ⟨-, -, -, rfl⟩ := ofComponents_eq_ok_iff.1 hopen
  have hlists : (components.foldl Roster.append {}).Lists components := by
    refine Roster.lists_foldl Roster.lists_nil ?_
    rw [List.nil_append, List.map_congr_left hids]
    exact hserials
  have hlist := Roster.newestFirst_of_lists hlists
  exact ⟨⟨hlist.symm ▸ hlists, fun c hc => hbelow c (hlist ▸ hc)⟩, hlist⟩

/-- Counts of components are never given back. -/
theorem nextSerial_acts (h : s.Acts thread s' thread' new) : s.nextSerial ≤ s'.nextSerial := by
  have hconsults : ∀ {k k' : Consultation}, s.Consults k s' k' new →
      s.nextSerial ≤ s'.nextSerial := by
    intro k k' hstep
    obtain ⟨full, count, states, tracker, metrics, pool, rfl⟩ := frame_consults hstep
    exact Nat.le_refl _
  cases h with
  | call hcalls =>
    cases hcalls with
    | flush => exact Nat.le_succ _
    | flushFails => exact Nat.le_succ _
    | consult hstep => exact hconsults hstep
    | _ => exact Nat.le_refl _
  | merge hmerges =>
    cases hmerges with
    | number => exact Nat.le_succ _
    | consult hstep => exact hconsults hstep
    | _ => exact Nat.le_refl _

theorem nextSerial_turn {τ : Turn} (hturn : s.turn τ = some t) :
    s.nextSerial ≤ t.nextSerial := by
  cases passes_of_turn hturn with
  | acts hacts hbefore hafter hsituation =>
    exact Nat.le_trans (nextSerial_acts hacts)
      (Nat.le_of_eq (congrArg (fun v => v.next) hsituation).symm)
  | begin hcall hthreads hsituation =>
    exact Nat.le_of_eq (congrArg (fun v => v.next) hsituation).symm
  | stand hthreads hsituation =>
    exact Nat.le_of_eq (congrArg (fun v => v.next) hsituation).symm

theorem nextSerial_course {turns : List Turn} (hcourse : s.course turns = some t) :
    s.nextSerial ≤ t.nextSerial := by
  induction turns generalizing s with
  | nil =>
    obtain rfl := Option.some.inj hcourse
    exact Nat.le_refl _
  | cons τ rest ih =>
    obtain ⟨u, hturn, hrest⟩ := Option.bind_eq_some_iff.1 hcourse
    exact Nat.le_trans (nextSerial_turn hturn) (ih hrest)

end Store

end Strata
