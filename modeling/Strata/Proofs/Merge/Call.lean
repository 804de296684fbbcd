import Strata.Proofs.Merge.Selection
import Strata.Proofs.Store.Parties

/-!
# The steps of a call of the policy

What a call of the policy can do next, written out as a relation with one case for every kind of
step. A call that has waited, or has its answer, orders nothing any more. Any other orders a merge
of at least two components if that is what the policy asks for, or of all; or the policy is content
with the components there are.
-/

namespace Strata

namespace Policy

/-- A policy that never asks for a merge of a single component. -/
def Joins : Policy → Prop
  | .runs _ tolerance => 2 ≤ tolerance
  | .all limit => 2 ≤ limit
  | .never => True

/-- A policy that would not merge any of some components, given newest first. -/
def Content (policy : Policy) (listed : List Component) : Prop :=
  match policy with
  | .runs largest tolerance =>
    Run.select largest tolerance (listed.reverse.map Component.size) = none
  | .all limit => listed.length < limit
  | .never => True

/-- Of no components none is to be merged. -/
theorem content_nil {policy : Policy} (h : policy.Joins) : policy.Content [] := by
  cases policy with
  | runs largest tolerance => rfl
  | all limit => exact Nat.lt_of_lt_of_le Nat.zero_lt_two h
  | never => trivial

/-- Whether components are to be merged depends on their number and their sizes. -/
theorem content_congr {policy : Policy} {listed others : List Component}
    (h : others.map Component.size = listed.map Component.size) :
    policy.Content others ↔ policy.Content listed := by
  have hlength : others.length = listed.length := by
    have heq := congrArg List.length h
    rwa [List.length_map, List.length_map] at heq
  cases policy with
  | runs largest tolerance =>
    rw [Content, Content, List.map_reverse, List.map_reverse, h]
  | all limit => rw [Content, Content, hlength]
  | never => exact Iff.rfl

/-- With some small components counted, no more of others are newest than a policy tolerates. -/
def Bears (policy : Policy) (counted : Nat) (listed : List Component) : Prop :=
  counted + (listed.takeWhile fun c => c.size ≤ (Call.limits policy).1).length ≤
    (Call.limits policy).2

/-- Where none is to be merged, one small component more is borne. -/
theorem bears_of_content {largest tolerance : Nat} {listed : List Component} {c : Component}
    (hjoins : (runs largest tolerance).Joins) (h : (runs largest tolerance).Content listed) :
    (runs largest tolerance).Bears 0 listed ∧ (runs largest tolerance).Bears 0 (c :: listed) := by
  have hfew := (Run.spares_of_select (Nat.lt_of_lt_of_le Nat.zero_lt_two hjoins) h).newest
  rw [List.map_reverse, List.reverse_reverse, List.takeWhile_map, List.length_map] at hfew
  have hfew' : (listed.takeWhile fun c => c.size ≤ largest).length < tolerance := hfew
  have hbears : ∀ cs : List Component, (runs largest tolerance).Bears 0 cs ↔
      (cs.takeWhile fun c => c.size ≤ largest).length ≤ tolerance := fun cs => by
    rw [Bears, Nat.zero_add]
    rfl
  rw [hbears, hbears, List.takeWhile_cons]
  refine ⟨Nat.le_of_lt hfew', ?_⟩
  split
  · exact hfew'
  · exact Nat.zero_le _

end Policy

namespace Phase

/-- A phase of a call that orders nothing any more: it has waited, or has its answer. -/
def Idle : Phase → Prop
  | .observe waited => waited = true
  | .look waited _ => waited = true
  | .count waited _ _ _ => waited = true
  | .drowse _ => True
  | .asleep _ => True
  | .finished _ => True
  | _ => False

/-- The steps of a call of the policy, by phase. -/
inductive Advances (b : Board) (policy : Policy) (full : Bool) : Phase → Phase → Prop where
  | wake : Advances b policy full .wake (Call.afterWake policy)
  | observe {waited : Bool} {observed : Nat} :
      Advances b policy full (.observe waited) (.look waited observed)
  | look {waited : Bool} {observed : Nat} :
      Advances b policy full (.look waited observed)
        (.count waited observed b.roster.newestFirst 0)
  | count {waited : Bool} {observed small : Nat} {c : Component} {rest : List Component}
      (hsmall : c.size ≤ (Call.limits policy).1) (hfew : small + 1 ≤ (Call.limits policy).2) :
      Advances b policy full (.count waited observed (c :: rest) small)
        (.count waited observed rest (small + 1))
  | counted {waited : Bool} {observed small : Nat} {rest : List Component}
      (hfew : small ≤ (Call.limits policy).2) :
      Advances b policy full (.count waited observed rest small)
        (if waited then .finished (.ok ()) else .survey)
  | block {waited : Bool} {observed small : Nat} {rest : List Component}
      (hmany : (Call.limits policy).2 < small ∨ ∃ c more, rest = c :: more ∧
        c.size ≤ (Call.limits policy).1 ∧ (Call.limits policy).2 < small + 1) :
      Advances b policy full (.count waited observed rest small) (.drowse observed)
  | sleep {observed : Nat} : Advances b policy full (.drowse observed) (.asleep observed)
  | pass {observed : Nat} : Advances b policy full (.drowse observed) (.observe true)
  | leave {observed : Nat} : Advances b policy full (.asleep observed) (.observe true)
  | survey :
      Advances b policy full .survey
        (.inspect (Call.inspection policy b.roster) (Call.inspection policy b.roster))
  | inspect {listed rest : List Component} {c : Component} (hstate : b.state c = .readable) :
      Advances b policy full (.inspect listed (c :: rest)) (.inspect listed rest)
  | defer {listed rest : List Component} {c : Component} (hstate : b.state c ≠ .readable) :
      Advances b policy full (.inspect listed (c :: rest)) (.finished (.ok ()))
  | everything {listed : List Component} (hfull : full = true) :
      Advances b policy full (.inspect listed []) (.ordered .everything)
  | run {listed members : List Component}
      (hmembers : members <:+: Call.newestFirst policy listed)
      (hjoins : policy.Joins → 2 ≤ members.length) :
      Advances b policy full (.inspect listed []) (.ordered (.run members))
  | content {listed : List Component}
      (hcontent : policy.Content (Call.newestFirst policy listed)) :
      Advances b policy full (.inspect listed []) (.finished (.ok ()))

variable {b : Board} {policy : Policy} {full : Bool}

theorem advances_afterCount (waited : Bool) {observed small : Nat} {rest : List Component}
    {counted : Nat} (hleast : small ≤ counted) (hmany : (Call.limits policy).2 < counted →
      (Call.limits policy).2 < small ∨ ∃ c more, rest = c :: more ∧
        c.size ≤ (Call.limits policy).1 ∧ (Call.limits policy).2 < small + 1) :
    Advances b policy full (.count waited observed rest small)
      (Call.afterCount b (Call.limits policy).2 waited observed counted).2 := by
  unfold Call.afterCount
  split
  · exact .counted (Nat.le_trans hleast ‹_›)
  · exact .block (hmany (Nat.lt_of_not_le ‹_›))

theorem advances_stepCount (waited : Bool) {observed small : Nat} (rest : List Component) :
    Advances b policy full (.count waited observed rest small)
      (Call.stepCount b (Call.limits policy).1 (Call.limits policy).2 waited observed rest
        small).2 := by
  cases rest with
  | nil => exact advances_afterCount waited (Nat.le_refl _) .inl
  | cons c rest =>
    simp only [Call.stepCount]
    split
    · exact advances_afterCount waited (Nat.le_refl _) .inl
    · rename_i hsmall
      split
      · exact advances_afterCount waited (Nat.le_refl _) .inl
      · split
        · exact advances_afterCount waited (Nat.le_succ _) fun hmany =>
            .inr ⟨c, rest, rfl, Nat.not_lt.1 hsmall, hmany⟩
        · exact .count (Nat.not_lt.1 hsmall) (Nat.not_lt.1 ‹_›)

/-- What is chosen is a merge of all components, a run of them, or nothing. -/
theorem advances_choose (listed : List Component) :
    Advances b policy full (.inspect listed []) (Call.choose policy full listed) := by
  unfold Call.choose
  split
  · exact .everything ‹_›
  · cases policy with
    | runs largest tolerance =>
      dsimp only
      split
      · rename_i run hrun
        have hstop := (Run.select_bounds hrun).2
        rw [List.length_map] at hstop
        refine .run (List.reverse_infix.2 (run.pick_infix listed)) fun hjoins => ?_
        rw [List.length_reverse, Run.length_pick hstop]
        exact Run.two_le_of_select hjoins hrun
      · refine .content ?_
        rw [Policy.Content, Call.newestFirst, List.reverse_reverse]
        assumption
    | all limit =>
      dsimp only
      split
      · exact .run List.infix_rfl fun hjoins => Nat.le_trans hjoins ‹_›
      · exact .content (Nat.lt_of_not_le ‹_›)
    | never => exact .content trivial

/-- Every step of a call of the policy is one of these. -/
theorem advances_of_step {b' : Board} {call call' : Call} (h : call.step b = some (b', call')) :
    Advances b call.policy call.full call.phase call'.phase := by
  obtain ⟨policy, full, phase⟩ := call
  cases phase with
  | wake =>
    obtain ⟨-, rfl⟩ := Prod.mk.inj (Option.some.inj h)
    exact .wake
  | observe waited =>
    obtain ⟨-, rfl⟩ := Prod.mk.inj (Option.some.inj h)
    exact .observe
  | look waited observed =>
    obtain ⟨-, rfl⟩ := Prod.mk.inj (Option.some.inj h)
    exact .look
  | count waited observed rest small =>
    obtain ⟨-, rfl⟩ := Prod.mk.inj (Option.some.inj h)
    exact advances_stepCount waited rest
  | drowse observed =>
    simp only [Call.step] at h
    split at h
    · obtain ⟨-, rfl⟩ := Prod.mk.inj (Option.some.inj h)
      exact .sleep
    · obtain ⟨-, rfl⟩ := Prod.mk.inj (Option.some.inj h)
      exact .pass
  | asleep observed =>
    simp only [Call.step] at h
    split at h
    · contradiction
    · obtain ⟨-, rfl⟩ := Prod.mk.inj (Option.some.inj h)
      exact .leave
  | survey =>
    obtain ⟨-, rfl⟩ := Prod.mk.inj (Option.some.inj h)
    exact .survey
  | inspect listed rest =>
    cases rest with
    | nil =>
      obtain ⟨-, rfl⟩ := Prod.mk.inj (Option.some.inj h)
      exact advances_choose listed
    | cons c rest =>
      simp only [Call.step] at h
      split at h
      · obtain ⟨-, rfl⟩ := Prod.mk.inj (Option.some.inj h)
        exact .inspect ‹_›
      · obtain ⟨-, rfl⟩ := Prod.mk.inj (Option.some.inj h)
        exact .defer ‹_›
  | ordered order => simp [Call.step] at h
  | finished answer => simp [Call.step] at h

/-- A call that orders nothing any more does not begin to do so. -/
theorem idle_of_advances {phase phase' : Phase} (h : Advances b policy full phase phase')
    (hidle : phase.Idle) : phase'.Idle := by
  cases h with
  | observe => exact hidle
  | look => exact hidle
  | count => exact hidle
  | counted =>
    rename_i waited observed small rest hfew
    have hwaited : waited = true := hidle
    rw [if_pos hwaited]
    trivial
  | block => trivial
  | sleep => trivial
  | pass => rfl
  | leave => rfl
  | _ => exact hidle.elim

end Phase

/-- Where a call of the policy begins. -/
theorem Call.phase_start (policy : Policy) (full : Bool) (added : Component) (byMerge : Bool) :
    (start policy full added byMerge).phase = .wake ∨
      (∃ largest tolerance, policy = .runs largest tolerance) ∧
        (start policy full added byMerge).phase = .observe false ∨
      (start policy full added byMerge).phase = .survey ∨
      policy = .never ∧ (start policy full added byMerge).phase = .finished (.ok ()) := by
  cases byMerge with
  | true => exact .inl rfl
  | false =>
    cases policy with
    | runs largest tolerance =>
      by_cases hsize : added.size ≤ largest
      · exact .inr (.inl ⟨⟨largest, tolerance, rfl⟩, if_pos hsize⟩)
      · exact .inr (.inr (.inl (if_neg hsize)))
    | all limit => exact .inr (.inr (.inl rfl))
    | never => exact .inr (.inr (.inr ⟨rfl, rfl⟩))

namespace Call

theorem metrics_afterCount (b : Board) (tolerance : Nat) (waited : Bool) (observed small : Nat) :
    ∃ blocks deferred, (afterCount b tolerance waited observed small).1.metrics =
      { b.metrics with blocks, deferred } := by
  unfold afterCount
  split
  · exact ⟨_, _, rfl⟩
  · cases waited <;> exact ⟨_, _, rfl⟩

theorem metrics_stepCount (b : Board) (largest tolerance : Nat) (waited : Bool) (observed : Nat)
    (rest : List Component) (small : Nat) :
    ∃ blocks deferred, (stepCount b largest tolerance waited observed rest small).1.metrics =
      { b.metrics with blocks, deferred } := by
  cases rest with
  | nil => exact metrics_afterCount ..
  | cons c rest =>
    simp only [stepCount]
    split
    · exact metrics_afterCount ..
    · split
      · exact metrics_afterCount ..
      · split
        · exact metrics_afterCount ..
        · exact ⟨_, _, rfl⟩

/-- While it decides, a call of the policy counts producers made to wait, and that it puts a merge
off. -/
theorem metrics_step {b b' : Board} {c c' : Call} (h : c.step b = some (b', c')) :
    ∃ blocks deferred, b'.metrics = { b.metrics with blocks, deferred } := by
  obtain ⟨policy, full, phase⟩ := c
  cases phase with
  | count waited observed rest small =>
    simp only [step, Option.some.injEq, Prod.mk.injEq] at h
    obtain ⟨rfl, -⟩ := h
    exact metrics_stepCount ..
  | drowse observed =>
    simp only [step] at h
    split at h <;>
    · obtain ⟨rfl, -⟩ := Prod.mk.inj (Option.some.inj h)
      exact ⟨_, _, rfl⟩
  | asleep observed =>
    simp only [step] at h
    split at h
    · contradiction
    · obtain ⟨rfl, -⟩ := Prod.mk.inj (Option.some.inj h)
      exact ⟨_, _, rfl⟩
  | inspect listed rest =>
    cases rest with
    | nil =>
      obtain ⟨rfl, -⟩ := Prod.mk.inj (Option.some.inj h)
      exact ⟨_, _, rfl⟩
    | cons first rest =>
      simp only [step] at h
      split at h <;>
      · obtain ⟨rfl, -⟩ := Prod.mk.inj (Option.some.inj h)
        exact ⟨_, _, rfl⟩
  | ordered order => simp [step] at h
  | finished answer => simp [step] at h
  | _ =>
    obtain ⟨rfl, -⟩ := Prod.mk.inj (Option.some.inj h)
    exact ⟨_, _, rfl⟩

end Call

end Strata
