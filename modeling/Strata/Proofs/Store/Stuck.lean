import Strata.Proofs.Store.Lone

/-!
# Parked members stop all merges

The members of a merge that failed too often stay claimed and listed. Every call of the policy looks
through the states of all components listed, comes across one of them, and orders nothing. So once
no call is past that, no merge is submitted any more, whatever clients call.
-/

namespace Strata

/-- Some components are listed and claimed. -/
structure Situation.Keeps (v : Situation) (parked : List Component) : Prop where
  nonempty : parked ≠ []
  listed : ∀ c ∈ parked, c ∈ v.roster.newestFirst
  claimed : ∀ c ∈ parked, v.states.state c.serial = .merging

/-- A call of the policy that has yet to come across a parked component, or orders nothing anyway.
-/
def Phase.Stuck (parked : List Component) : Phase → Prop
  | .inspect _ rest => ∃ c ∈ parked, c ∈ rest
  | .ordered _ => False
  | _ => True

def Consultation.Stuck (parked : List Component) : Consultation → Prop
  | .thinking call => call.phase.Stuck parked
  | .scheduling _ (.answered _) => True
  | .scheduling .. => False

def Task.Stuck (parked : List Component) : Task → Prop
  | .consult k => k.Stuck parked
  | _ => True

def Job.Stuck (parked : List Component) (job : Job) : Prop :=
  match job.phase with
  | .consult k => k.Stuck parked
  | .land => True
  | .signal => True
  | .over => True
  | .lost => True
  | _ => False

/-- A thread that submits no merge since some components are parked. -/
def Thread.Stuck (parked : List Component) : Thread → Prop
  | .call task => task.Stuck parked
  | .merge job => job.Stuck parked

variable {parked : List Component}

/-- A thread that submits no merge anyway. -/
theorem Thread.stuck_of_idle {thread : Thread} (h : thread.Idle) : thread.Stuck parked := by
  have hconsult : ∀ {k : Consultation}, k.Idle → k.Stuck parked := by
    intro k hk
    cases k with
    | thinking call =>
      obtain ⟨policy, full, phase⟩ := call
      cases phase with
      | inspect => exact hk.elim
      | ordered => exact hk.elim
      | _ => trivial
    | scheduling call phase =>
      cases phase with
      | answered => trivial
      | _ => exact hk.elim
  cases thread with
  | call task =>
    cases task with
    | consult k => exact hconsult h
    | _ => trivial
  | merge job =>
    obtain ⟨members, phase⟩ := job
    cases phase with
    | consult k => exact hconsult h
    | land => trivial
    | signal => trivial
    | «over» => trivial
    | lost => trivial
    | _ => exact h.elim

theorem Phase.stuck_advances {b : Board} {policy : Policy} {full : Bool} {phase phase' : Phase}
    (h : Advances b policy full phase phase') (hnonempty : parked ≠ [])
    (hlisted : ∀ c ∈ parked, c ∈ b.roster.newestFirst)
    (hclaimed : ∀ c ∈ parked, b.state c = .merging) (hstuck : phase.Stuck parked) :
    phase'.Stuck parked := by
  have hend : ∀ {listed : List Component}, ¬ (Phase.inspect listed []).Stuck parked := by
    rintro listed ⟨c, -, hc⟩
    exact absurd hc List.not_mem_nil
  cases h with
  | wake => cases policy <;> trivial
  | counted => split <;> trivial
  | survey =>
    obtain ⟨c, hc⟩ := List.exists_mem_of_ne_nil parked hnonempty
    refine ⟨c, hc, ?_⟩
    cases policy with
    | runs => exact List.mem_reverse.2 (hlisted c hc)
    | all => exact hlisted c hc
    | never => exact hlisted c hc
  | inspect hstate =>
    obtain ⟨c, hc, hrest⟩ := hstuck
    rcases List.mem_cons.1 hrest with rfl | hrest
    · rw [hclaimed c hc] at hstate
      contradiction
    · exact ⟨c, hc, hrest⟩
  | everything => exact absurd hstuck hend
  | run => exact absurd hstuck hend
  | _ => trivial

theorem Phase.stuck_start (policy : Policy) (full : Bool) (added : Component) (byMerge : Bool) :
    (Call.start policy full added byMerge).phase.Stuck parked := by
  rcases Call.phase_start policy full added byMerge with h | ⟨-, h⟩ | h | ⟨-, h⟩ <;> rw [h] <;>
    trivial

namespace Store

variable {s s' t : Store} {new : List Job} {thread thread' : Thread}

/-- Some components are parked: they stay claimed, and no thread submits a merge. -/
structure Stuck (s : Store) (parked : List Component) : Prop where
  tidy : s.situation.Tidy
  kept : s.situation.Keeps parked
  threads : ∀ thread ∈ s.threads, thread.Stuck parked

theorem stuck_consults {k k' : Consultation} (h : s.Consults k s' k' new)
    (hkept : s.situation.Keeps parked) (hstuck : k.Stuck parked) :
    k'.Stuck parked ∧ new = [] ∧ s'.situation.Keeps parked := by
  cases h with
  | think hstep =>
    have hadvances := Phase.advances_of_step hstep
    obtain ⟨tracker, metrics, rfl, hcall, -⟩ := Call.step_frame hstep
    rw [hcall]
    exact ⟨Phase.stuck_advances hadvances hkept.nonempty hkept.listed
      hkept.claimed hstuck, rfl, ⟨hkept.nonempty, hkept.listed, hkept.claimed⟩⟩
  | order horder =>
    rename_i call order
    obtain ⟨policy, full, phase⟩ := call
    cases phase with
    | ordered given => exact hstuck.elim
    | _ => simp [Call.order?] at horder
  | schedule hphase hstep =>
    rename_i call phase phase'
    cases phase with
    | answered answer => simp [Scheduling.answer?] at hphase
    | _ => exact hstuck.elim
  | reply =>
    rename_i call answer
    obtain ⟨metrics, result, hreply⟩ := Call.reply_frame s.board call answer
    rw [hreply]
    exact ⟨trivial, rfl, ⟨hkept.nonempty, hkept.listed, hkept.claimed⟩⟩

/-- What stays listed and claimed while neither the list nor the states change. -/
theorem keeps_of_ledger {v w : Situation} (h : v.Keeps parked) (hroster : w.roster = v.roster)
    (hstates : w.states = v.states) : w.Keeps parked where
  nonempty := h.nonempty
  listed := by
    rw [hroster]
    exact h.listed
  claimed := by
    rw [hstates]
    exact h.claimed

/-- No step of a client lists fewer components, or hands one back that is parked. -/
theorem stuck_calls {task task' : Task} (h : s.Calls task s' task' new)
    (htidy : s.situation.Tidy) (hkept : s.situation.Keeps parked) (hstuck : task.Stuck parked)
    (hword : s'.nextSerial ≤ Numeral.word) :
    task'.Stuck parked ∧ new = [] ∧ s'.situation.Keeps parked := by
  cases h with
  | insert htask =>
    refine ⟨?_, rfl, keeps_of_ledger hkept rfl rfl⟩
    rcases htask with rfl | rfl <;> trivial
  | flush hserial =>
    have hlist := Roster.newestFirst_of_lists (newestFirst_prepend htidy hserial hword)
    refine ⟨trivial, rfl, hkept.nonempty, fun c hc => ?_, hkept.claimed⟩
    exact hlist ▸ List.mem_cons_of_mem _ (hkept.listed c hc)
  | report => exact ⟨Phase.stuck_start .., rfl, keeps_of_ledger hkept rfl rfl⟩
  | requested htask =>
    refine ⟨?_, rfl, keeps_of_ledger hkept rfl rfl⟩
    rcases htask with rfl | rfl <;> trivial
  | newest => exact ⟨Phase.stuck_start .., rfl, keeps_of_ledger hkept rfl rfl⟩
  | consult hstep => exact stuck_consults hstep hkept hstuck
  | draining htask =>
    refine ⟨?_, rfl, keeps_of_ledger hkept rfl rfl⟩
    rcases htask with rfl | rfl <;> trivial
  | drowse htask =>
    refine ⟨?_, rfl, keeps_of_ledger hkept rfl rfl⟩
    rcases htask with rfl | rfl <;> trivial
  | _ => exact ⟨trivial, rfl, keeps_of_ledger hkept rfl rfl⟩

theorem stuck_merges {job : Job} {phase : Job.Phase} (h : s.Merges job s' phase new)
    (htidy : s.situation.Tidy) (hkept : s.situation.Keeps parked) (hstuck : job.Stuck parked) :
    Job.Stuck parked { job with phase } ∧ new = [] ∧ s'.situation.Tidy ∧
      s'.situation.Keeps parked := by
  cases h with
  | consulted hanswer => exact ⟨trivial, rfl, htidy, hkept⟩
  | consult hstep =>
    obtain ⟨hk, hnew, hkept'⟩ := stuck_consults hstep hkept hstuck
    exact ⟨hk, hnew, tidy_consults hstep htidy, hkept'⟩
  | land =>
    exact ⟨trivial, rfl, tidy_of_roster htidy rfl (Nat.le_refl _), keeps_of_ledger hkept rfl rfl⟩
  | signal =>
    exact ⟨trivial, rfl, tidy_of_roster htidy rfl (Nat.le_refl _), keeps_of_ledger hkept rfl rfl⟩
  | _ => exact hstuck.elim

theorem stuck_acts (h : s.Acts thread s' thread' new) (htidy : s.situation.Tidy)
    (hkept : s.situation.Keeps parked) (hstuck : thread.Stuck parked)
    (hword : s'.nextSerial ≤ Numeral.word) :
    thread'.Stuck parked ∧ new = [] ∧ s'.situation.Tidy ∧ s'.situation.Keeps parked := by
  cases h with
  | call hcalls =>
    obtain ⟨htask, hnew, hkept'⟩ := stuck_calls hcalls htidy hkept hstuck hword
    exact ⟨htask, hnew, tidy_calls hcalls htidy hword, hkept'⟩
  | merge hmerges => exact stuck_merges hmerges htidy hkept hstuck

/-- Parked components stay where they are in every turn, and none submits a merge. -/
theorem Stuck.turn (h : s.Stuck parked) {τ : Turn} (hproper : τ.Proper)
    (hturn : s.turn τ = some t) (hword : t.nextSerial ≤ Numeral.word) :
    t.Stuck parked ∧ s.orders τ = [] := by
  cases passes_of_turn hturn with
  | acts hacts hbefore hafter hsituation hflight hmerge horders =>
    rename_i thread thread' s' new others
    have hnext : t.nextSerial = s'.nextSerial := congrArg (fun v => v.next) hsituation
    obtain ⟨hstuck, rfl, htidy, hkept⟩ := stuck_acts hacts h.tidy h.kept
      (h.threads thread (hbefore.mem_iff.2 List.mem_cons_self)) (hnext ▸ hword)
    refine ⟨⟨hsituation ▸ htidy, hsituation ▸ hkept, ?_⟩, ?_⟩
    · exact forall_threads hafter hstuck (by simp) fun other hother =>
        h.threads other (hbefore.mem_iff.2 (List.mem_cons_of_mem _ hother))
    · rcases horders with ⟨-, hnone⟩ | ⟨all, members, -, hnew, -⟩
      · exact hnone
      · contradiction
  | begin hcall hthreads hsituation hflight =>
    subst hcall
    refine ⟨⟨hsituation ▸ h.tidy, hsituation ▸ h.kept, fun thread hmem => ?_⟩,
      orders_eq_nil rfl⟩
    rcases List.mem_cons.1 (hthreads.mem_iff.1 hmem) with rfl | hmem
    · cases hproper <;> trivial
    · exact h.threads thread hmem
  | stand hthreads hsituation hflight hmerge horders =>
    exact ⟨⟨hsituation ▸ h.tidy, hsituation ▸ h.kept, fun thread hmem =>
      h.threads thread (hthreads.mem_iff.1 hmem)⟩, horders⟩

/-- Parked components stay where they are, and no merge is submitted any more. -/
theorem Stuck.course (h : s.Stuck parked) {turns : List Turn} (hproper : ∀ τ ∈ turns, τ.Proper)
    (hcourse : s.course turns = some t) (hword : t.nextSerial ≤ Numeral.word) :
    t.Stuck parked ∧ s.trail orders turns = [] := by
  induction turns generalizing s with
  | nil =>
    obtain rfl := Option.some.inj hcourse
    exact ⟨h, rfl⟩
  | cons τ rest ih =>
    obtain ⟨u, hturn, hrest⟩ := Option.bind_eq_some_iff.1 hcourse
    rw [List.forall_mem_cons] at hproper
    have hu := Nat.le_trans (nextSerial_course hrest) hword
    obtain ⟨hstuck, hnone⟩ := h.turn hproper.1 hturn hu
    obtain ⟨hend, hnothing⟩ := ih hstuck hproper.2 hrest
    refine ⟨hend, ?_⟩
    rw [trail_cons orders hturn, hnone, hnothing]
    rfl

end Store

end Strata
