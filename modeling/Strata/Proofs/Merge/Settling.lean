import Strata.Proofs.Merge.Restraint

/-!
# Calls that nobody disturbs

A call that runs alone finds the same components in the same states at each of its moments. Every
step lowers the number of steps that are left, which the number of components bounds, so the call
comes to a stop within the bound it is given: it has ordered a merge, has its answer, or waits.
-/

namespace Strata

/-- The steps that are left after a wait: the small components are counted again, and the states of
all components are read. -/
def Phase.lapse (listed : Nat) (t : Tracker) (observed : Nat) : Nat :=
  if t.holds observed then 0 else 2 * listed + 6

/-- The steps that are left at most to a call that runs alone. -/
def Phase.rank (listed : Nat) (t : Tracker) : Phase → Nat
  | .wake => listed + 3
  | .observe _ => 2 * listed + 5
  | .look _ observed => 2 * listed + 4 + lapse listed t observed
  | .count _ observed rest _ => rest.length + listed + 3 + lapse listed t observed
  | .drowse observed => 1 + lapse listed t observed
  | .asleep observed => lapse listed t observed
  | .survey => listed + 2
  | .inspect _ rest => rest.length + 1
  | .ordered _ => 0
  | .finished _ => 0

namespace Call

variable {b b' : Board} {c d first : Call}

theorem length_inspection (policy : Policy) (r : Roster) :
    (inspection policy r).length = r.newestFirst.length := by
  cases policy with
  | runs largest tolerance => exact List.length_reverse
  | all limit => rfl
  | never => rfl

/-- Only the generation counts of a tracker. -/
theorem rank_congr {t t' : Tracker} (h : t'.generation = t.generation) (listed : Nat)
    (phase : Phase) : phase.rank listed t' = phase.rank listed t := by
  have hholds : ∀ observed, t'.holds observed = t.holds observed := by
    intro observed
    unfold Tracker.holds
    rw [h]
  cases phase <;> simp only [Phase.rank, Phase.lapse, hholds]

/-- Every step lowers the number of steps that are left. -/
theorem rank_step (h : c.step b = some (b', d)) :
    d.phase.rank b.roster.newestFirst.length b'.tracker <
      c.phase.rank b.roster.newestFirst.length b.tracker := by
  obtain ⟨tracker, metrics, rfl, -, hgeneration⟩ := step_frame h
  have hadvances := Phase.advances_of_step h
  obtain ⟨policy, full, phase⟩ := c
  have hsame : phase ≠ .wake → ∀ next : Phase,
      next.rank b.roster.newestFirst.length tracker =
        next.rank b.roster.newestFirst.length b.tracker := by
    intro hphase next
    apply rank_congr
    exact hgeneration.resolve_right fun hwake => hphase hwake.1
  cases phase with
  | wake =>
    obtain ⟨-, rfl⟩ := Prod.mk.inj (Option.some.inj h)
    cases policy <;> simp [afterWake, Phase.rank]
  | observe waited =>
    obtain ⟨-, rfl⟩ := Prod.mk.inj (Option.some.inj h)
    rw [hsame (by simp)]
    simp [Phase.rank, Phase.lapse, Tracker.holds]
  | look waited observed =>
    obtain ⟨-, rfl⟩ := Prod.mk.inj (Option.some.inj h)
    rw [hsame (by simp)]
    simp only [Phase.rank]
    omega
  | count waited observed rest small =>
    rw [hsame (by simp)]
    generalize d.phase = next at hadvances ⊢
    cases hadvances with
    | count =>
      simp only [Phase.rank, List.length_cons]
      omega
    | counted =>
      cases waited with
      | true => simp only [if_true, Phase.rank]; omega
      | false => simp only [Bool.false_eq_true, if_false, Phase.rank]; omega
    | block =>
      simp only [Phase.rank]
      omega
  | drowse observed =>
    rw [hsame (by simp)]
    by_cases hholds : b.tracker.holds observed
    · simp only [step, hholds, if_true, Option.some.injEq, Prod.mk.injEq] at h
      obtain ⟨-, rfl⟩ := h
      simp only [Phase.rank]
      omega
    · simp only [step, hholds, Bool.false_eq_true, if_false, Option.some.injEq, Prod.mk.injEq] at h
      obtain ⟨-, rfl⟩ := h
      simp only [Phase.rank, Phase.lapse, hholds, Bool.false_eq_true, if_false]
      omega
  | asleep observed =>
    rw [hsame (by simp)]
    by_cases hholds : b.tracker.holds observed
    · simp [step, hholds] at h
    · simp only [step, hholds, Bool.false_eq_true, if_false, Option.some.injEq, Prod.mk.injEq] at h
      obtain ⟨-, rfl⟩ := h
      simp only [Phase.rank, Phase.lapse, hholds, Bool.false_eq_true, if_false]
      omega
  | survey =>
    obtain ⟨-, rfl⟩ := Prod.mk.inj (Option.some.inj h)
    simp [Phase.rank, length_inspection]
  | inspect listed rest =>
    generalize d.phase = next at hadvances ⊢
    cases hadvances <;> simp [Phase.rank]
  | ordered order => simp [step] at h
  | finished answer => simp [step] at h

/-- A call that has enough steps is run until there is none. -/
theorem step_run {count : Nat}
    (h : c.phase.rank b.roster.newestFirst.length b.tracker ≤ count) :
    (c.run count b).2.step (c.run count b).1 = none := by
  induction count generalizing b c with
  | zero =>
    rw [run]
    cases hstep : c.step b with
    | none => rfl
    | some next =>
      have hlt := rank_step hstep
      omega
  | succ count ih =>
    rw [run]
    cases hstep : c.step b with
    | none => exact hstep
    | some next =>
      obtain ⟨b', d⟩ := next
      have hlt := rank_step hstep
      obtain ⟨tracker, metrics, rfl, -, -⟩ := step_frame hstep
      exact ih (Nat.le_of_lt_succ (Nat.lt_of_lt_of_le hlt h))

/-- Steps of a call touch the tracker and the counts. -/
theorem run_frame (count : Nat) (b : Board) (c : Call) :
    ∃ tracker metrics, (c.run count b).1 = { b with tracker, metrics } := by
  induction count generalizing b c with
  | zero => exact ⟨_, _, rfl⟩
  | succ count ih =>
    rw [run]
    cases hstep : c.step b with
    | none => exact ⟨_, _, rfl⟩
    | some next =>
      obtain ⟨b', d⟩ := next
      obtain ⟨tracker, metrics, rfl, -, -⟩ := step_frame hstep
      exact ih _ d

theorem settle_frame {last : Call} (h : c.settle b = (b', last)) :
    ∃ tracker metrics, b' = { b with tracker, metrics } := by
  have hframe := run_frame (bound b) b c
  change ∃ tracker metrics, (c.settle b).1 = _ at hframe
  rwa [h] at hframe

/-- A call that stands still has ordered a merge, has its answer, or waits. -/
theorem still_of_step_eq_none (h : c.step b = none) :
    c.Decided ∨ ∃ observed, c.phase = .asleep observed := by
  obtain ⟨policy, full, phase⟩ := c
  cases phase with
  | asleep observed => exact .inr ⟨observed, rfl⟩
  | ordered order => exact .inl (.inl ⟨order, rfl⟩)
  | finished answer => exact .inl (.inr ⟨answer, rfl⟩)
  | drowse observed =>
    simp only [step] at h
    split at h <;> contradiction
  | inspect listed rest =>
    cases rest with
    | nil => simp [step] at h
    | cons c rest =>
      simp only [step] at h
      split at h <;> contradiction
  | _ => simp [step] at h

/-- A moment at which a call finds some components in some states. -/
def Moment.On (b : Board) (m : Moment) : Prop :=
  m.found.roster = b.roster ∧ m.found.states = b.states

/-- A call that is run goes through moments at which nothing has changed but what it has changed
itself. -/
theorem course_run {ms : List Moment} (count : Nat) (h : Course first ms c) :
    ∃ more, Course first (ms ++ more) (c.run count b).2 ∧
      ∀ m ∈ more, m.On b ∧ m.reply = none := by
  induction count generalizing b c ms with
  | zero => exact ⟨[], by rwa [List.append_nil], by simp⟩
  | succ count ih =>
    rw [run]
    cases hstep : c.step b with
    | none => exact ⟨[], by rwa [List.append_nil], by simp⟩
    | some next =>
      obtain ⟨b', d⟩ := next
      have hcourse := Course.step h hstep
      obtain ⟨tracker, metrics, rfl, -, -⟩ := step_frame hstep
      obtain ⟨more, hmore, hon⟩ := ih hcourse
      refine ⟨_ :: more, by rwa [List.append_cons], ?_⟩
      rw [List.forall_mem_cons]
      exact ⟨⟨⟨rfl, rfl⟩, rfl⟩, hon⟩

theorem newestFirst_length_le (r : Roster) : r.newestFirst.length ≤ r.length :=
  List.length_filterMap_le _ _

/-- The bound suffices for a call that begins. -/
theorem rank_start_le (policy : Policy) (full : Bool) (added : Component) (byMerge : Bool) :
    (start policy full added byMerge).phase.rank b.roster.newestFirst.length b.tracker ≤
      bound b := by
  have hle := newestFirst_length_le b.roster
  unfold bound
  rcases phase_start policy full added byMerge with h | ⟨-, h⟩ | h | ⟨-, h⟩
  all_goals
    rw [h]
    simp only [Phase.rank]
    omega

/-- A call that begins and runs alone orders a merge, has its answer, or waits. -/
theorem settle_start (policy : Policy) (full : Bool) (added : Component) (byMerge : Bool) :
    ((start policy full added byMerge).settle b).2.Decided ∨
      ∃ observed, ((start policy full added byMerge).settle b).2.phase = .asleep observed :=
  still_of_step_eq_none (step_run (rank_start_le policy full added byMerge))

/-- A call that orders nothing any more does not begin to do so. -/
theorem idle_run (count : Nat) (h : c.phase.Idle) : (c.run count b).2.phase.Idle := by
  induction count generalizing b c with
  | zero => exact h
  | succ count ih =>
    rw [run]
    cases hstep : c.step b with
    | none => exact h
    | some next =>
      obtain ⟨b', d⟩ := next
      exact ih (Phase.idle_of_advances (Phase.advances_of_step hstep) h)

/-- What a call goes through that runs alone, and what it orders then: all components are free, and
the order is one that may be given for them. -/
theorem settle_spec {largest tolerance : Nat} {full : Bool} {b b' : Board} {added : Component}
    {byMerge : Bool} {last : Call}
    (h : (start (.runs largest tolerance) full added byMerge).settle b = (b', last)) :
    (∃ ms, Course (start (.runs largest tolerance) full added byMerge) ms last ∧
        ∀ m ∈ ms, m.On b ∧ m.reply = none) ∧
      (last.Decided ∨ ∃ observed, last.phase = .asleep observed) ∧
      ∀ order, last.order? = some order → (∀ c ∈ b.roster.newestFirst, b.state c = .readable) ∧
        Suits largest full b.roster.oldestFirst order := by
  have hstill := settle_start (b := b) (.runs largest tolerance) full added byMerge
  rw [h] at hstill
  have hnil : Course (start (.runs largest tolerance) full added byMerge) []
      (start (.runs largest tolerance) full added byMerge) := .nil
  obtain ⟨ms, hcourse, hon⟩ := course_run (b := b) (bound b) hnil
  change Course _ ms ((start (.runs largest tolerance) full added byMerge).settle b).2 at hcourse
  rw [h] at hcourse
  refine ⟨⟨ms, hcourse, hon⟩, hstill, ?_⟩
  intro order horder
  have hordered : order ∈ orders ms last := by simp [orders, horder]
  obtain ⟨listed, ⟨⟨m, hm, -, hlisted⟩, hfree⟩, hsuits⟩ :=
    (restrained_of_course hcourse).suited order hordered
  rw [(hon m hm).1.1] at hlisted
  obtain rfl := hlisted
  refine ⟨?_, hsuits⟩
  intro c hc
  obtain ⟨m, hm, -, hstate⟩ := hfree c (List.mem_reverse.2 hc)
  rwa [Board.state, (hon m hm).1.2] at hstate

end Call

end Strata
