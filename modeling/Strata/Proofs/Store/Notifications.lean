import Strata.Proofs.Store.Idle

/-!
# Notifications

Whoever waits has noted the generation before, and a notification raises it by one. So within a
word the generation is the number of notifications, and a thread is held just as long as none has
come since it noted the generation.
-/

namespace Strata

/-- The generation noted by the call of a client, in the policy or in a wait for merges. -/
def Task.observed? : Task → Option Nat
  | .consult k => k.noted?
  | .draining observed => some observed
  | .drowse observed => some observed
  | .asleep observed => some observed
  | _ => none

theorem Task.observed?_of_noted? {task : Task} {g : Nat} (h : task.noted? = some g) :
    task.observed? = some g := by
  cases task with
  | consult k => exact h
  | _ => contradiction

theorem Task.observed?_of_begins {task : Task} (h : task.Begins) : task.observed? = none := by
  cases h <;> rfl

namespace Store

variable {s s' t : Store} {new : List Job}

/-- When an index has been opened, there are no threads, no notification has come and no merge is in
flight. -/
theorem fresh_ofComponents {options : Options} {policy : Policy} {codec : Codec}
    {files : Directory} {components : List Component}
    (h : ofComponents options policy codec files components = .ok s) :
    s.threads = [] ∧ s.board.tracker = {} ∧ s.inFlight = 0 ∧ s.pool = .start options.threads := by
  obtain ⟨-, -, -, rfl⟩ := ofComponents_eq_ok_iff.1 h
  refine ⟨?_, rfl, rfl, rfl⟩
  rw [threads, Pool.jobs_start]
  rfl

/-- How often a turn notifies those who wait. -/
def notifications (s : Store) : Turn → Nat
  | .action (.client i) => s.clients[i]?.toList.countP Task.wakes
  | .action (.work i) => (s.pool.jobOf? i).toList.countP Job.wakes
  | _ => 0

/-- A turn notifies at most once, and the generation tells whether it has. -/
theorem notifications_turn {τ : Turn} (h : s.turn τ = some t) :
    s.notifications τ = 0 ∧ t.board.tracker.generation = s.board.tracker.generation ∨
      s.notifications τ = 1 ∧
        t.board.tracker.generation = s.board.tracker.notify.generation := by
  have hone : ∀ {wakes : Bool},
      (t.board.tracker.generation =
        if wakes then s.board.tracker.notify.generation else s.board.tracker.generation) →
      s.notifications τ = (if wakes then 1 else 0) →
      s.notifications τ = 0 ∧ t.board.tracker.generation = s.board.tracker.generation ∨
        s.notifications τ = 1 ∧
          t.board.tracker.generation = s.board.tracker.notify.generation := by
    intro wakes hgeneration hcount
    cases wakes
    · exact .inl ⟨hcount, hgeneration⟩
    · exact .inr ⟨hcount, hgeneration⟩
  cases τ with
  | action a =>
    cases a with
    | call task =>
      obtain rfl := Option.some.inj h
      exact .inl ⟨rfl, rfl⟩
    | client i =>
      obtain ⟨task, s', task', htask, hstep, rfl⟩ := client_eq_some_iff.1 h
      have hgeneration := generation_stepTask hstep
      refine hone hgeneration ?_
      rw [notifications, htask, Option.toList_some, List.countP_singleton]
    | take i =>
      obtain ⟨pool, -, rfl⟩ := Option.map_eq_some_iff.1 h
      exact .inl ⟨rfl, rfl⟩
    | work i =>
      obtain ⟨job, s', job', hjob, hstep, rfl⟩ := work_eq_some_iff.1 h
      obtain ⟨phase, new, rfl, hmerges⟩ := merges_of_stepJob hstep
      have hgeneration := generation_merges hmerges
      refine hone hgeneration ?_
      rw [notifications, hjob, Option.toList_some, List.countP_singleton]
    | reap serial =>
      simp only [turn, step, reap, bind, Option.bind_eq_some_iff, pure, Option.some.injEq] at h
      obtain ⟨c, -, name, -, rfl⟩ := h
      exact .inl ⟨rfl, rfl⟩
    | shutdown =>
      obtain rfl := Option.some.inj h
      exact .inl ⟨rfl, rfl⟩
  | files d =>
    obtain rfl := Option.some.inj h
    exact .inl ⟨rfl, rfl⟩
  | failMerge i f =>
    obtain ⟨job, -, -, rfl⟩ := failMerge_eq_some_iff.1 h
    exact .inl ⟨rfl, rfl⟩
  | failFlush i f =>
    obtain ⟨-, -, rfl⟩ := failFlush_eq_some_iff.1 h
    exact .inl ⟨rfl, rfl⟩

/-- The generation counts notifications, within a word. -/
theorem generation_mod_course {turns : List Turn} (h : s.course turns = some t) :
    t.board.tracker.generation % Numeral.word =
      (s.board.tracker.generation + s.sum notifications turns) % Numeral.word := by
  induction turns generalizing s with
  | nil =>
    obtain rfl := Option.some.inj h
    rfl
  | cons τ rest ih =>
    obtain ⟨u, hturn, hrest⟩ := Option.bind_eq_some_iff.1 h
    rw [sum_cons notifications hturn, ih hrest]
    rcases notifications_turn hturn with ⟨hcount, hgeneration⟩ | ⟨hcount, hgeneration⟩
    · rw [hcount, hgeneration, Nat.zero_add]
    · rw [hcount, hgeneration, Tracker.notify, Nat.mod_add_mod, Nat.add_assoc]

/-- Notifications are told by the generation, unless their number is a multiple of a word. -/
theorem generation_ne {turns : List Turn} (h : s.course turns = some t)
    (hmoved : ¬ Numeral.word ∣ s.sum notifications turns) :
    t.board.tracker.generation ≠ s.board.tracker.generation := by
  intro hsame
  have hmod := generation_mod_course h
  rw [hsame] at hmod
  refine hmoved (Nat.dvd_of_mod_eq_zero ?_)
  simp only [Numeral.word] at hmod ⊢
  omega

theorem generation_turn {τ : Turn} (h : s.turn τ = some t)
    (hfew : s.board.tracker.generation + s.notifications τ < Numeral.word) :
    t.board.tracker.generation = s.board.tracker.generation + s.notifications τ := by
  rcases notifications_turn h with ⟨hcount, hgeneration⟩ | ⟨hcount, hgeneration⟩
  · rw [hcount, hgeneration]
    rfl
  · rw [hcount] at hfew ⊢
    rw [hgeneration, Tracker.notify, Nat.mod_eq_of_lt hfew]

/-- Until a word is reached, the generation is the number of notifications. -/
theorem generation_course {turns : List Turn} (h : s.course turns = some t)
    (hfew : s.board.tracker.generation + s.sum notifications turns < Numeral.word) :
    t.board.tracker.generation =
      s.board.tracker.generation + s.sum notifications turns := by
  induction turns generalizing s with
  | nil =>
    obtain rfl := Option.some.inj h
    rfl
  | cons τ rest ih =>
    obtain ⟨u, hturn, hrest⟩ := Option.bind_eq_some_iff.1 h
    rw [sum_cons notifications hturn] at hfew ⊢
    have hnext := generation_turn hturn (by omega)
    have hlast := ih hrest (by omega)
    omega

/-- Behind a step, a call of a client has noted what it had noted before, or the generation it has
just read. -/
theorem observed?_stepTask {task task' : Task} {g : Nat}
    (h : s.stepTask task = some (s', task')) (hobserved : task'.observed? = some g) :
    task.observed? = some g ∨ g = s'.board.tracker.generation := by
  obtain ⟨new, hcalls⟩ := calls_of_stepTask h
  have hnoted : ∀ {k : Consultation}, task' = .consult k →
      task.observed? = some g ∨ g = s'.board.tracker.generation := by
    rintro k rfl
    rcases noted?_stepTask h with hawake | ⟨g', hg', hold⟩ | hlooks
    · exact nomatch hawake.1.symm.trans hobserved
    · rw [hg'.symm.trans hobserved] at hold
      exact .inl (Task.observed?_of_noted? hold)
    · exact .inr (Option.some.inj (hobserved.symm.trans (Task.noted?_of_looks hlooks)))
  cases hcalls with
  | insert htask => rcases htask with rfl | rfl <;> contradiction
  | requested htask => rcases htask with rfl | rfl <;> contradiction
  | report => exact hnoted rfl
  | newest => exact hnoted rfl
  | consult => exact hnoted rfl
  | drain => exact .inr (Option.some.inj hobserved).symm
  | draining htask =>
    rcases htask with rfl | rfl
    · contradiction
    · exact .inl hobserved
  | drowse htask =>
    rcases htask with rfl | rfl
    · exact .inl hobserved
    · contradiction
  | _ => contradiction

/-- Nobody has noted a generation that is still to come. -/
def Timely (s : Store) : Prop :=
  ∀ (i : Nat) (task : Task) (g : Nat), s.clients[i]? = some task → task.observed? = some g →
    g ≤ s.board.tracker.generation

theorem timely_of_clients (h : s.clients = []) : s.Timely := by
  intro i task g htask
  simp [h] at htask

theorem Timely.turn {τ : Turn} (h : s.Timely) (hproper : τ.Proper) (hturn : s.turn τ = some t)
    (hfew : s.board.tracker.generation + s.notifications τ < Numeral.word) : t.Timely := by
  have hnext := generation_turn hturn hfew
  intro i task g htask hobserved
  rcases clients_turn hproper hturn htask with
    hsame | hbegins | ⟨f, rfl⟩ | ⟨before, s', hbefore, htaken, hafter⟩
  · exact Nat.le_trans (h i task g hsame hobserved) (by omega)
  · exact nomatch (Task.observed?_of_begins hbegins).symm.trans hobserved
  · contradiction
  · rcases observed?_stepTask htaken hobserved with hold | hread
    · exact Nat.le_trans (h i before g hbefore hold) (by omega)
    · rw [hread, hafter]

/-- Until a word of notifications has come, nobody has noted a generation that is still to come. -/
theorem Timely.course {turns : List Turn} (h : s.Timely) (hproper : ∀ τ ∈ turns, τ.Proper)
    (hcourse : s.course turns = some t)
    (hfew : s.board.tracker.generation + s.sum notifications turns < Numeral.word) :
    t.Timely := by
  induction turns generalizing s with
  | nil =>
    obtain rfl := Option.some.inj hcourse
    exact h
  | cons τ rest ih =>
    obtain ⟨u, hturn, hrest⟩ := Option.bind_eq_some_iff.1 hcourse
    rw [List.forall_mem_cons] at hproper
    rw [sum_cons notifications hturn] at hfew
    have hnext := generation_turn hturn (by omega)
    exact ih (h.turn hproper.1 hturn (by omega)) hproper.2 hrest (by omega)

end Store

end Strata
