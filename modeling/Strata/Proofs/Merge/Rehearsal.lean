import Strata.Merge.Rehearsal
import Strata.Proofs.Component.Roster
import Strata.Proofs.Merge.Settling

/-!
# One merge at a time

A policy that merges runs is tried on components whose members are claimed when a merge is
scheduled. Whatever is done, no call orders a merge while a job is unfinished: the members of the
job are listed and claimed, and a call that begins sees them. Calls that had to wait order nothing
when they go on. Each call looks through the components before another begins.
-/

namespace Strata

namespace Lifecycle

theorem move_eq_ok_iff {l l' : Lifecycle} {serial : Nat} {m : Move} :
    l.move serial m = .ok l' ↔ l.state serial = m.source ∧ l' = l.set serial m.target := by
  unfold move
  by_cases h : l.state serial = m.source
  · simp [State.moved, Move.apply, h, bind, Except.bind, pure, Except.pure, eq_comm]
  · simp [State.moved, Move.apply, h, bind, Except.bind]

/-- Moves of some components leave the others as they were. -/
theorem state_moveAll_of_not_mem {m : Move} {serials : List Nat} {n : Nat} (l : Lifecycle)
    (h : n ∉ serials) : (l.moveAll m serials).1.state n = l.state n := by
  induction serials generalizing l with
  | nil => rfl
  | cons serial rest ih =>
    rw [List.mem_cons, not_or] at h
    rw [moveAll]
    cases hmove : l.move serial m with
    | error e => rfl
    | ok l' =>
      obtain ⟨-, rfl⟩ := move_eq_ok_iff.1 hmove
      dsimp only
      rw [ih _ h.2, state_set, if_neg h.1]

/-- Where all moves are made, all components are where the move leads. -/
theorem state_of_moveAll {m : Move} {serials : List Nat} {l l' : Lifecycle}
    (h : l.moveAll m serials = (l', .ok ())) : ∀ n ∈ serials, l'.state n = m.target := by
  induction serials generalizing l with
  | nil => simp
  | cons serial rest ih =>
    rw [moveAll] at h
    cases hmove : l.move serial m with
    | error e => simp [hmove] at h
    | ok next =>
      rw [hmove] at h
      dsimp only at h
      intro n hn
      by_cases hrest : n ∈ rest
      · exact ih h n hrest
      · obtain rfl : n = serial := (List.mem_cons.1 hn).resolve_right hrest
        obtain ⟨-, rfl⟩ := move_eq_ok_iff.1 hmove
        have hkept := state_moveAll_of_not_mem (m := m) (l.set n m.target) hrest
        rw [h, state_set, if_pos rfl] at hkept
        exact hkept

end Lifecycle

namespace Rehearsal

/-- What may be done to a rehearsal. -/
inductive Act where
  /-- Add a component without a call of the policy. -/
  | push (size : Nat)
  /-- Add a component, and call the policy for it. -/
  | flush (size : Nat) (full : Bool)
  /-- Call the policy once more for the component at a place of the list. -/
  | added (place : Nat) (full : Bool)
  /-- The same as for the result of a merge. -/
  | merged (place : Nat) (full : Bool)
  /-- Claim a component for another party. -/
  | claim (id : Nat)
  /-- Let orders be answered in another way from now on. -/
  | mode (m : Mode)
  | complete (index : Nat) (size : Option Nat) (full : Bool)
  | fail (index : Nat) (full : Bool)
  | notify

/-- Do one thing. A call is for a component that is listed, and a job is completed or failed
once. -/
def act (r : Rehearsal) : Act → Option Rehearsal
  | .push size => some (r.push size).1
  | .flush size full =>
    let (r, c) := r.push size
    some (r.produce full c).1
  | .added place full => r.board.roster.newestFirst[place]?.map fun c => (r.produce full c).1
  | .merged place full =>
    r.board.roster.newestFirst[place]?.map fun c => (Rehearsal.merged r full c).1
  | .claim id => some (r.move id .claim).1
  | .mode m => some { r with mode := m }
  | .complete index size full =>
    (r.jobs[index]?.filter fun job => !job.done).map fun _ => (r.complete index size full).1
  | .fail index full =>
    (r.jobs[index]?.filter fun job => !job.done).map fun _ => (r.fail index full).1
  | .notify => some r.notify.1

/-- Do one thing after the other. -/
def play (r : Rehearsal) : List Act → Option Rehearsal
  | [] => some r
  | a :: rest => (r.act a).bind fun r => r.play rest

/-- The number of jobs that are neither completed nor failed. -/
def unfinished (r : Rehearsal) : Nat := r.jobs.countP fun job => !job.done

section Frame

/-- A later rehearsal with the same components. -/
structure Alike (r r' : Rehearsal) : Prop where
  policy : r'.policy = r.policy
  roster : r'.board.roster = r.board.roster
  nextSerial : r.nextSerial ≤ r'.nextSerial

theorem Alike.trans {r r' r'' : Rehearsal} (h : Alike r r') (h' : Alike r' r'') : Alike r r'' :=
  ⟨h'.policy.trans h.policy, h'.roster.trans h.roster, Nat.le_trans h.nextSerial h'.nextSerial⟩

variable {r : Rehearsal}

theorem runCall_of_no_order {c d : Call} {board : Board}
    (hsettle : c.settle r.board = (board, d)) (horder : d.order? = none) :
    r.runCall c = ({ r with board }, d) := by
  simp [runCall, hsettle, horder]

theorem runCall_of_order {c d : Call} {board : Board} {order : Order} {t : Rehearsal}
    {answer : Except Error Bool} (hsettle : c.settle r.board = (board, d))
    (horder : d.order? = some order) (hcarry : { r with board }.carryOut order = (t, answer)) :
    r.runCall c =
      ({ t with board := (d.reply t.board answer).1 }, (d.reply t.board answer).2) := by
  simp [runCall, hsettle, horder, hcarry]

/-- Scheduling a merge touches states and jobs. -/
theorem schedule_frame (r : Rehearsal) (full : Bool) (members : List Component) :
    ∃ states jobs, (r.schedule full members).1 =
      { r with board := { r.board with states }, jobs } := by
  unfold schedule
  split
  · exact ⟨_, _, rfl⟩
  · exact ⟨_, _, rfl⟩
  · split <;> exact ⟨_, _, rfl⟩

theorem carryOut_frame (r : Rehearsal) (order : Order) :
    ∃ states jobs, (r.carryOut order).1 =
      { r with board := { r.board with states }, jobs } := by
  cases order with
  | run members => exact schedule_frame r false members
  | everything => exact schedule_frame r true r.board.roster.newestFirst

/-- A call touches the board apart from the list of components, and the jobs. -/
theorem runCall_frame (r : Rehearsal) (c : Call) :
    ∃ states tracker metrics jobs, (r.runCall c).1 =
      { r with board := { r.board with states, tracker, metrics }, jobs } := by
  rcases hsettle : c.settle r.board with ⟨board, d⟩
  obtain ⟨tracker, metrics, rfl⟩ := Call.settle_frame hsettle
  cases horder : d.order? with
  | none =>
    rw [runCall_of_no_order hsettle horder]
    exact ⟨_, _, _, _, rfl⟩
  | some order =>
    rcases hcarry : { r with board := { r.board with tracker, metrics } }.carryOut order with
      ⟨t, answer⟩
    obtain ⟨states, jobs, hframe⟩ :=
      carryOut_frame { r with board := { r.board with tracker, metrics } } order
    rw [hcarry] at hframe
    dsimp only at hframe
    subst hframe
    rw [runCall_of_order hsettle horder hcarry]
    obtain ⟨metrics', result, hreply⟩ := Call.reply_frame _ d answer
    rw [hreply]
    exact ⟨_, _, _, _, rfl⟩

theorem alike_runCall (r : Rehearsal) (c : Call) : Alike r (r.runCall c).1 := by
  obtain ⟨states, tracker, metrics, jobs, hframe⟩ := runCall_frame r c
  rw [hframe]
  exact ⟨rfl, rfl, Nat.le_refl _⟩

end Frame

section Guard

variable {r t : Rehearsal}

/-- A job has members, and they stand together in the list and are claimed. -/
structure Holds (r : Rehearsal) (job : Job) : Prop where
  nonempty : job.members ≠ []
  listed : job.members <:+: r.board.roster.newestFirst
  claimed : ∀ c ∈ job.members, r.board.state c = .merging

/-- A policy that merges runs, and components that each have a number of their own. -/
structure Tidy (r : Rehearsal) : Prop where
  runs : ∃ largest tolerance, r.policy = .runs largest tolerance
  lists : r.board.roster.Lists r.board.roster.newestFirst
  low : ∀ c ∈ r.board.roster.newestFirst, c.serial < r.nextSerial

/-- What keeps a second merge from being scheduled: the members of an unfinished job can be seen to
be claimed, and those who have waited order nothing. -/
structure Guarded (r : Rehearsal) : Prop extends Tidy r where
  single : r.unfinished ≤ 1
  held : ∀ job ∈ r.jobs, job.done = false → r.Holds job
  idle : ∀ p ∈ r.blocked, p.2.phase.Idle

/-- All jobs are completed or failed. -/
def AllDone (jobs : List Job) : Prop := ∀ job ∈ jobs, job.done = true

theorem unfinished_of_allDone (h : AllDone r.jobs) : r.unfinished = 0 := by
  rw [unfinished, List.countP_eq_zero]
  intro job hjob
  simp [h job hjob]

/-- With one unfinished job at most, its end leaves none. -/
theorem allDone_set {index : Nat} {job : Job} (hsingle : r.unfinished ≤ 1)
    (hjob : r.jobs[index]? = some job) (hopen : job.done = false) :
    AllDone (r.jobs.set index { job with done := true }) := by
  obtain ⟨hindex, rfl⟩ := List.getElem?_eq_some_iff.1 hjob
  have hcount : (r.jobs.set index { r.jobs[index] with done := true }).countP
      (fun job => !job.done) = 0 := by
    rw [List.countP_set hindex]
    unfold unfinished at hsingle
    simp [hopen]
    omega
  intro other hother
  have hnot := List.countP_eq_zero.1 hcount other hother
  simpa using hnot

theorem Tidy.of_alike (h : Tidy r) (halike : Alike r t) : Tidy t where
  runs := halike.policy ▸ h.runs
  lists := by
    rw [halike.roster]
    exact h.lists
  low := by
    rw [halike.roster]
    exact fun c hc => Nat.lt_of_lt_of_le (h.low c hc) halike.nextSerial

/-- Where no job is unfinished, only the list of components and those who wait matter. -/
theorem Tidy.guarded (h : Tidy r) (hdone : AllDone r.jobs)
    (hidle : ∀ p ∈ r.blocked, p.2.phase.Idle) : Guarded r where
  toTidy := h
  single := by
    rw [unfinished_of_allDone hdone]
    exact Nat.zero_le 1
  held := by
    intro job hjob hopen
    rw [hdone job hjob] at hopen
    contradiction
  idle := hidle

theorem Guarded.of_allDone (h : Guarded r) (halike : Alike r t) (hdone : AllDone t.jobs)
    (hidle : ∀ p ∈ t.blocked, p.2.phase.Idle) : Guarded t :=
  (h.toTidy.of_alike halike).guarded hdone hidle

/-- Of the board only the list of components and their states matter. -/
theorem Guarded.congr (h : Guarded r) (halike : Alike r t)
    (hstates : t.board.states = r.board.states) (hjobs : t.jobs = r.jobs)
    (hidle : ∀ p ∈ t.blocked, p.2.phase.Idle) : Guarded t where
  toTidy := h.toTidy.of_alike halike
  single := by
    rw [unfinished, hjobs]
    exact h.single
  held := by
    intro job hjob hopen
    rw [hjobs] at hjob
    obtain ⟨hnonempty, hlisted, hclaimed⟩ := h.held job hjob hopen
    refine ⟨hnonempty, by rwa [halike.roster], ?_⟩
    intro c hc
    rw [Board.state, hstates]
    exact hclaimed c hc
  idle := hidle

/-- A call that orders nothing any more may join those who wait. -/
theorem Guarded.block (h : Guarded r) {c : Call} (hidle : c.phase.Idle) (producer : Nat) :
    Guarded { r with blocked := r.blocked ++ [(producer, c)] } := by
  refine h.congr ⟨rfl, rfl, Nat.le_refl _⟩ rfl rfl ?_
  simp only [List.mem_append, List.mem_singleton]
  rintro p (hp | rfl)
  · exact h.idle p hp
  · exact hidle

/-- Components that are all free belong to no unfinished job. -/
theorem Guarded.allDone (h : Guarded r)
    (hfree : ∀ c ∈ r.board.roster.newestFirst, r.board.state c = .readable) : AllDone r.jobs := by
  intro job hjob
  by_contra hopen
  have hholds := h.held job hjob (eq_false_of_ne_true hopen)
  obtain ⟨c, rest, hmembers⟩ := List.exists_cons_of_ne_nil hholds.nonempty
  have hc : c ∈ job.members := by simp [hmembers]
  have hclaimed := hholds.claimed c hc
  rw [hfree c (hholds.listed.subset hc)] at hclaimed
  contradiction

/-- A merge is scheduled where no job is unfinished: its members are claimed. -/
theorem Guarded.schedule (h : Guarded r) (hdone : AllDone r.jobs) {members : List Component}
    (hmembers : members ≠ []) (hlisted : members <:+: r.board.roster.newestFirst) (full : Bool) :
    Guarded (r.schedule full members).1 := by
  unfold Rehearsal.schedule
  split
  · exact h
  · exact h
  · split
    · exact h.of_allDone ⟨rfl, rfl, Nat.le_refl _⟩ hdone h.idle
    · rename_i states hmove
      refine ⟨⟨h.runs, h.lists, h.low⟩, ?_, ?_, h.idle⟩
      · have hnone := unfinished_of_allDone hdone
        unfold unfinished at hnone ⊢
        rw [List.countP_append, hnone]
        simp
      · intro job hjob hopen
        rcases List.mem_append.1 hjob with hjob | hjob
        · rw [hdone job hjob] at hopen
          contradiction
        · obtain rfl := List.mem_singleton.1 hjob
          refine ⟨hmembers, hlisted, ?_⟩
          intro c hc
          exact Lifecycle.state_of_moveAll hmove c.serial (List.mem_map_of_mem hc)

/-- What is ordered of the components listed can be scheduled. -/
theorem Guarded.carryOut (h : Guarded r) (hdone : AllDone r.jobs) {largest : Nat} {full : Bool}
    {order : Order} (hlisted : r.board.roster.newestFirst ≠ [])
    (hsuits : Call.Suits largest full r.board.roster.oldestFirst order) :
    Guarded (r.carryOut order).1 := by
  cases order with
  | run members =>
    obtain ⟨-, hmembers, hinfix, -⟩ := hsuits
    rw [Roster.oldestFirst, List.reverse_reverse] at hinfix
    exact h.schedule hdone hmembers hinfix false
  | everything => exact h.schedule hdone hlisted List.infix_rfl true

/-- A call that begins keeps the guard: it orders a merge only where all components are free. It
ends, or has to wait. -/
theorem Guarded.runCall_start (h : Guarded r) (hlisted : r.board.roster.newestFirst ≠ [])
    (full : Bool) (added : Component) (byMerge : Bool) :
    Guarded (r.runCall (.start r.policy full added byMerge)).1 ∧
      (r.runCall (.start r.policy full added byMerge)).2.phase.Idle := by
  obtain ⟨largest, tolerance, hpolicy⟩ := h.runs
  rw [hpolicy]
  rcases hsettle : (Call.start (.runs largest tolerance) full added byMerge).settle r.board with
    ⟨board, d⟩
  obtain ⟨tracker, metrics, rfl⟩ := Call.settle_frame hsettle
  have hkept : Guarded { r with board := { r.board with tracker, metrics } } :=
    h.congr ⟨rfl, rfl, Nat.le_refl _⟩ rfl rfl h.idle
  obtain ⟨-, hstill, hordered⟩ := Call.settle_spec hsettle
  cases horder : d.order? with
  | none =>
    rw [runCall_of_no_order hsettle horder]
    refine ⟨hkept, ?_⟩
    rcases hstill with (⟨order, hsome⟩ | ⟨answer, hanswer⟩) | ⟨observed, hphase⟩
    · rw [horder] at hsome
      contradiction
    · rw [Call.answer?_eq_some_iff.1 hanswer]
      trivial
    · rw [hphase]
      trivial
  | some order =>
    obtain ⟨hfree, hsuits⟩ := hordered order horder
    -- The members of an unfinished job would have been seen: they are listed, and claimed.
    have hdone : AllDone r.jobs := h.allDone hfree
    have hcarried := hkept.carryOut hdone hlisted hsuits
    rcases hcarry : { r with board := { r.board with tracker, metrics } }.carryOut order with
      ⟨t, answer⟩
    rw [hcarry] at hcarried
    rw [runCall_of_order hsettle horder hcarry]
    obtain ⟨metrics', result, hreply⟩ := Call.reply_frame t.board d answer
    rw [hreply]
    exact ⟨hcarried.congr ⟨rfl, rfl, Nat.le_refl _⟩ rfl rfl hcarried.idle, trivial⟩

/-- A call that goes on after a wait orders nothing. -/
theorem Guarded.runCall_idle (h : Guarded r) {c : Call} (hidle : c.phase.Idle) :
    Guarded (r.runCall c).1 ∧ (r.runCall c).2.phase.Idle := by
  have hphase : (c.settle r.board).2.phase.Idle := Call.idle_run (Call.bound r.board) hidle
  rcases hsettle : c.settle r.board with ⟨board, d⟩
  obtain ⟨tracker, metrics, rfl⟩ := Call.settle_frame hsettle
  rw [hsettle] at hphase
  dsimp only at hphase
  have horder : d.order? = none := by
    rw [Option.eq_none_iff_forall_ne_some]
    intro order horder
    rw [Call.order?_eq_some_iff.1 horder] at hphase
    exact hphase
  rw [runCall_of_no_order hsettle horder]
  exact ⟨h.congr ⟨rfl, rfl, Nat.le_refl _⟩ rfl rfl h.idle, hphase⟩

end Guard

section Acts

variable {r t : Rehearsal}

theorem alike_produce (r : Rehearsal) (full : Bool) (added : Component) :
    Alike r (r.produce full added).1 := by
  obtain ⟨hpolicy, hroster, hserial⟩ := alike_runCall
    { r with nextProducer := r.nextProducer + 1 } (.start r.policy full added false)
  unfold produce
  dsimp only
  split
  · exact ⟨hpolicy, hroster, hserial⟩
  · exact ⟨hpolicy, hroster, hserial⟩
  · exact ⟨hpolicy, hroster, hserial⟩

/-- A producer that has to wait orders nothing later. -/
theorem Guarded.produce (h : Guarded r) (hlisted : r.board.roster.newestFirst ≠ []) (full : Bool)
    (added : Component) : Guarded (r.produce full added).1 := by
  have hnext : Guarded { r with nextProducer := r.nextProducer + 1 } :=
    h.congr ⟨rfl, rfl, Nat.le_refl _⟩ rfl rfl h.idle
  obtain ⟨hkept, hidle⟩ := hnext.runCall_start hlisted full added false
  unfold Rehearsal.produce
  dsimp only
  split
  · exact hkept
  · exact hkept
  · exact hkept.block hidle _

/-- Those who wait look again, one after the other. -/
theorem resume_spec (r : Rehearsal) :
    Alike r r.resume.1 ∧ (Guarded r → Guarded r.resume.1) := by
  unfold resume
  have hbegin : Alike r { r with blocked := [] } ∧
      (Guarded r → Guarded { r with blocked := [] }) := by
    refine ⟨⟨rfl, rfl, Nat.le_refl _⟩, fun h => ?_⟩
    exact h.congr ⟨rfl, rfl, Nat.le_refl _⟩ rfl rfl (by simp)
  refine List.foldlRecOn r.blocked _
    (motive := fun x : Rehearsal × _ => Alike r x.1 ∧ (Guarded r → Guarded x.1)) hbegin ?_
  rintro ⟨u, resumed⟩ ⟨halike, hguarded⟩ ⟨producer, c⟩ hp
  have halike' : Alike r (u.runCall c).1 := halike.trans (alike_runCall u c)
  have hguarded' : Guarded r → Guarded (u.runCall c).1 ∧ (u.runCall c).2.phase.Idle := by
    intro h
    exact (hguarded h).runCall_idle (h.idle _ hp)
  dsimp only
  split
  · exact ⟨halike', fun h => (hguarded' h).1⟩
  · refine ⟨⟨halike'.policy, halike'.roster, halike'.nextSerial⟩, fun h => ?_⟩
    obtain ⟨hkept, hidle⟩ := hguarded' h
    exact hkept.block hidle producer

theorem notify_spec (r : Rehearsal) :
    Alike r r.notify.1 ∧ (Guarded r → Guarded r.notify.1) := by
  obtain ⟨halike, hguarded⟩ := resume_spec { r with board := r.board.notify }
  refine ⟨⟨halike.policy, halike.roster, halike.nextSerial⟩, fun h => hguarded ?_⟩
  exact h.congr ⟨rfl, rfl, Nat.le_refl _⟩ rfl rfl h.idle

theorem alike_merged (r : Rehearsal) (full : Bool) (added : Component) :
    Alike r (Rehearsal.merged r full added).1 := by
  have halike := (alike_runCall r (.start r.policy full added true)).trans (notify_spec _).1
  unfold Rehearsal.merged
  dsimp only
  split
  · exact halike
  · exact halike

theorem Guarded.merged (h : Guarded r) (hlisted : r.board.roster.newestFirst ≠ []) (full : Bool)
    (added : Component) : Guarded (Rehearsal.merged r full added).1 := by
  have hkept := (h.runCall_start hlisted full added true).1
  have hnotified := (notify_spec _).2 hkept
  unfold Rehearsal.merged
  dsimp only
  split
  · exact hnotified
  · exact hnotified

/-- The next component has a number of its own, as long as numbers do not begin anew. -/
theorem Guarded.id_not_mem (h : Guarded r) (hword : r.nextSerial < Numeral.word) {c : Component}
    (hserial : c.serial = r.nextSerial) {listed : List Component}
    (hlisted : listed ⊆ r.board.roster.newestFirst) : c.id ∉ listed.map Component.id := by
  intro hmem
  obtain ⟨d, hd, heq⟩ := List.mem_map.1 hmem
  have hlt := h.low d (hlisted hd)
  rw [Component.id_of_lt (Nat.lt_trans hlt hword), Component.id_of_lt (hserial ▸ hword),
    hserial] at heq
  omega

theorem Guarded.push (h : Guarded r) (hword : r.nextSerial < Numeral.word) (size : Nat) :
    Guarded (r.push size).1 ∧ (r.push size).1.board.roster.newestFirst ≠ [] := by
  have hlists : (r.push size).1.board.roster.Lists
      ((r.push size).2 :: r.board.roster.newestFirst) :=
    Roster.lists_prepend h.lists (h.id_not_mem hword rfl (List.Subset.refl _))
  have hlist := Roster.newestFirst_of_lists hlists
  refine ⟨⟨⟨h.runs, ?_, ?_⟩, h.single, ?_, h.idle⟩, by rw [hlist]; exact List.cons_ne_nil _ _⟩
  · rw [hlist]
    exact hlists
  · rw [hlist, List.forall_mem_cons]
    refine ⟨Nat.lt_succ_self _, ?_⟩
    intro c hc
    exact Nat.lt_succ_of_lt (h.low c hc)
  · intro job hjob hopen
    obtain ⟨hnonempty, hlisted, hclaimed⟩ := h.held job hjob hopen
    refine ⟨hnonempty, ?_, hclaimed⟩
    rw [hlist]
    exact hlisted.trans (List.suffix_cons _ _).isInfix

/-- A claim of another party takes no component from a job. -/
theorem Guarded.move (h : Guarded r) (id : Nat) : Guarded (r.move id .claim).1 := by
  unfold Rehearsal.move
  split
  · exact h
  · rename_i states hmove
    obtain ⟨-, rfl⟩ := Lifecycle.move_eq_ok_iff.1 hmove
    refine ⟨⟨h.runs, h.lists, h.low⟩, h.single, ?_, h.idle⟩
    intro job hjob hopen
    obtain ⟨hnonempty, hlisted, hclaimed⟩ := h.held job hjob hopen
    refine ⟨hnonempty, hlisted, ?_⟩
    intro c hc
    rw [Board.state, Lifecycle.state_set]
    split
    · rfl
    · exact hclaimed c hc

theorem alike_move (r : Rehearsal) (id : Nat) (m : Move) : Alike r (r.move id m).1 := by
  unfold Rehearsal.move
  split <;> exact ⟨rfl, rfl, Nat.le_refl _⟩

/-- A job that is failed hands its members back before the policy is called. -/
theorem fail_spec {index : Nat} {job : Job} (full : Bool) (hjob : r.jobs[index]? = some job)
    (hopen : job.done = false) :
    Alike r (r.fail index full).1 ∧ (Guarded r → Guarded (r.fail index full).1) := by
  have halike : Alike r (r.settleJob index job .release).1 := ⟨rfl, rfl, Nat.le_refl _⟩
  have hsettled : Guarded r → Guarded (r.settleJob index job .release).1 := by
    intro h
    exact h.of_allDone halike (allDone_set h.single hjob hopen) h.idle
  unfold Rehearsal.fail
  simp only [hjob]
  rcases hsettle : r.settleJob index job .release with ⟨t, answer⟩
  rw [hsettle] at halike hsettled
  split
  · rename_i heq
    obtain ⟨rfl, -⟩ := Prod.mk.inj heq
    exact ⟨halike, hsettled⟩
  · rename_i heq hnil
    obtain ⟨rfl, -⟩ := Prod.mk.inj heq
    exact ⟨halike, hsettled⟩
  · rename_i u newest older heq hcons
    obtain ⟨rfl, -⟩ := Prod.mk.inj heq
    refine ⟨halike.trans (alike_merged t full newest), fun h => (hsettled h).merged ?_ full newest⟩
    rw [halike.roster]
    intro hempty
    have hlisted := (h.held job (List.mem_of_getElem? hjob) hopen).listed
    rw [hempty, hcons, List.infix_nil] at hlisted
    contradiction

/-- The result of a job that is done stands where its members stood. -/
theorem Guarded.replaced (h : Guarded r) {index : Nat} {job : Job}
    (hjob : r.jobs[index]? = some job) (hopen : job.done = false)
    (hword : r.nextSerial < Numeral.word) {result : Component}
    (hserial : result.serial = r.nextSerial) {roster : Roster}
    (hreplace : r.board.roster.replace (job.members.map Component.id) result = .ok roster)
    (states : Lifecycle) :
    Guarded { r with
      nextSerial := r.nextSerial + 1
      board := { r.board with roster, states }
      jobs := r.jobs.set index { job with done := true } } ∧ roster.newestFirst ≠ [] := by
  have hdone := allDone_set h.single hjob hopen
  have hholds := h.held job (List.mem_of_getElem? hjob) hopen
  obtain ⟨newer, older, hsplit⟩ := hholds.listed
  have hsublist : newer ++ older ⊆ r.board.roster.newestFirst := by
    intro c hc
    rw [← hsplit]
    simp only [List.mem_append] at hc ⊢
    exact hc.elim (fun hc => .inl (.inl hc)) .inr
  obtain ⟨roster', hreplace', hlists⟩ := Roster.replace_eq_ok (hsplit.symm ▸ h.lists)
    hholds.nonempty (h.id_not_mem hword hserial hsublist)
  obtain rfl := Except.ok.inj (hreplace.symm.trans hreplace')
  have hlist := Roster.newestFirst_of_lists hlists
  refine ⟨Tidy.guarded ⟨h.runs, ?_, ?_⟩ hdone h.idle, by rw [hlist]; simp⟩
  · rw [hlist]
    exact hlists
  · rw [hlist]
    intro c hc
    rw [List.append_assoc, List.mem_append, List.mem_append, List.mem_singleton] at hc
    have hcases : c = result ∨ c ∈ r.board.roster.newestFirst := by
      rcases hc with hc | hc | hc
      · exact .inr (hsublist (List.mem_append_left _ hc))
      · exact .inl hc
      · exact .inr (hsublist (List.mem_append_right _ hc))
    rcases hcases with rfl | hc
    · exact Nat.lt_succ_of_le (Nat.le_of_eq hserial)
    · exact Nat.lt_succ_of_lt (h.low c hc)

/-- A job that is completed has its result listed before the policy is called. -/
theorem complete_spec {index : Nat} {job : Job} (size : Option Nat) (full : Bool)
    (hjob : r.jobs[index]? = some job) (hopen : job.done = false) :
    r.nextSerial ≤ (r.complete index size full).1.nextSerial ∧
      (Guarded r → (r.complete index size full).1.nextSerial ≤ Numeral.word →
        Guarded (r.complete index size full).1) := by
  have hdone : Guarded r → AllDone (r.jobs.set index { job with done := true }) := fun h =>
    allDone_set h.single hjob hopen
  unfold Rehearsal.complete
  simp only [hjob]
  split
  · refine ⟨Nat.le_refl _, fun h _ => ?_⟩
    exact h.of_allDone ⟨rfl, rfl, Nat.le_refl _⟩ (hdone h) h.idle
  · exact ⟨Nat.le_refl _, fun h _ => h⟩
  · split
    · refine ⟨Nat.le_succ _, fun h _ => ?_⟩
      exact h.of_allDone ⟨rfl, rfl, Nat.le_succ _⟩ (hdone h) h.idle
    · rename_i roster hreplace
      generalize hsettle : settleJob _ index job .replace = settled
      obtain ⟨t, answer⟩ := settled
      have ht : t = _ := (congrArg Prod.fst hsettle).symm
      have hreplaced : Guarded r → r.nextSerial < Numeral.word →
          Guarded t ∧ t.board.roster.newestFirst ≠ [] := by
        intro h hword
        rw [ht]
        exact h.replaced hjob hopen hword rfl hreplace _
      have hnext : t.nextSerial = r.nextSerial + 1 := ht ▸ rfl
      cases answer with
      | error e =>
        refine ⟨hnext ▸ Nat.le_succ _, fun h hword => (hreplaced h ?_).1⟩
        have hle : t.nextSerial ≤ Numeral.word := hword
        rw [hnext] at hle
        exact Nat.lt_of_succ_le hle
      | ok done =>
        have hserial : ∀ result, r.nextSerial + 1 ≤ (Rehearsal.merged t full result).1.nextSerial :=
          fun result => hnext ▸ (alike_merged t full result).nextSerial
        refine ⟨Nat.le_trans (Nat.le_succ _) (hserial _), fun h hword => ?_⟩
        have hlt : r.nextSerial < Numeral.word :=
          Nat.lt_of_succ_le (Nat.le_trans (hserial _) hword)
        obtain ⟨hkept, hlisted⟩ := hreplaced h hlt
        exact hkept.merged hlisted full _

/-- What any act keeps. -/
theorem act_spec {a : Act} (h : r.act a = some t) :
    r.nextSerial ≤ t.nextSerial ∧ (Guarded r → t.nextSerial ≤ Numeral.word → Guarded t) := by
  have hjob : ∀ {index : Nat} {job : Job},
      (r.jobs[index]?.filter fun job => !job.done) = some job →
        r.jobs[index]? = some job ∧ job.done = false := by
    intro index job hfilter
    obtain ⟨hget, hopen⟩ := Option.filter_eq_some_iff.1 hfilter
    exact ⟨hget, by simpa using hopen⟩
  have hlisted : ∀ {place : Nat} {c : Component}, r.board.roster.newestFirst[place]? = some c →
      r.board.roster.newestFirst ≠ [] := fun hget =>
    List.ne_nil_of_mem (List.mem_of_getElem? hget)
  cases a with
  | push size =>
    obtain rfl := Option.some.inj h
    exact ⟨Nat.le_succ _, fun hkept hword => (hkept.push hword size).1⟩
  | flush size full =>
    obtain rfl := Option.some.inj h
    have hserial := (alike_produce (r.push size).1 full (r.push size).2).nextSerial
    refine ⟨Nat.le_trans (Nat.le_succ _) hserial, fun hkept hword => ?_⟩
    obtain ⟨hpushed, hnonempty⟩ := hkept.push (Nat.lt_of_succ_le (Nat.le_trans hserial hword)) size
    exact hpushed.produce hnonempty full _
  | added place full =>
    obtain ⟨c, hget, rfl⟩ := Option.map_eq_some_iff.1 h
    refine ⟨(alike_produce r full c).nextSerial, fun hkept _ => ?_⟩
    exact hkept.produce (hlisted hget) full c
  | merged place full =>
    obtain ⟨c, hget, rfl⟩ := Option.map_eq_some_iff.1 h
    refine ⟨(alike_merged r full c).nextSerial, fun hkept _ => ?_⟩
    exact hkept.merged (hlisted hget) full c
  | claim id =>
    obtain rfl := Option.some.inj h
    exact ⟨(alike_move r id .claim).nextSerial, fun hkept _ => hkept.move id⟩
  | mode m =>
    obtain rfl := Option.some.inj h
    refine ⟨Nat.le_refl _, fun hkept _ => ?_⟩
    exact hkept.congr ⟨rfl, rfl, Nat.le_refl _⟩ rfl rfl hkept.idle
  | complete index size full =>
    obtain ⟨job, hfilter, rfl⟩ := Option.map_eq_some_iff.1 h
    obtain ⟨hget, hopen⟩ := hjob hfilter
    exact complete_spec size full hget hopen
  | fail index full =>
    obtain ⟨job, hfilter, rfl⟩ := Option.map_eq_some_iff.1 h
    obtain ⟨hget, hopen⟩ := hjob hfilter
    obtain ⟨halike, hguarded⟩ := fail_spec full hget hopen
    exact ⟨halike.nextSerial, fun hkept _ => hguarded hkept⟩
  | notify =>
    obtain rfl := Option.some.inj h
    obtain ⟨halike, hguarded⟩ := notify_spec r
    exact ⟨halike.nextSerial, fun hkept _ => hguarded hkept⟩

/-- What any sequence of acts keeps. -/
theorem play_spec {acts : List Act} (h : r.play acts = some t) :
    r.nextSerial ≤ t.nextSerial ∧ (Guarded r → t.nextSerial ≤ Numeral.word → Guarded t) := by
  induction acts generalizing r with
  | nil =>
    obtain rfl := Option.some.inj h
    exact ⟨Nat.le_refl _, fun hkept _ => hkept⟩
  | cons a rest ih =>
    obtain ⟨u, hact, hrest⟩ := Option.bind_eq_some_iff.1 h
    obtain ⟨hfirst, hkeeps⟩ := act_spec hact
    obtain ⟨hlast, hkeeps'⟩ := ih hrest
    refine ⟨Nat.le_trans hfirst hlast, fun hkept hword => ?_⟩
    exact hkeeps' (hkeeps hkept (Nat.le_trans hlast hword)) hword

/-- A policy on components of given sizes, oldest first, in given states. -/
def startIn (policy : Policy) (sizes : List Nat) (states : Lifecycle) : Rehearsal :=
  sizes.foldl (fun r size => (r.push size).1) { policy, board := { states } }

theorem play_push (r : Rehearsal) (sizes : List Nat) :
    r.play (sizes.map .push) = some (sizes.foldl (fun r size => (r.push size).1) r) := by
  induction sizes generalizing r with
  | nil => rfl
  | cons size rest ih => exact ih (r.push size).1

/-- Components that are there from the start belong to no job. -/
theorem guarded_startIn {largest tolerance : Nat} {sizes : List Nat} {states : Lifecycle}
    (hword : (startIn (.runs largest tolerance) sizes states).nextSerial ≤ Numeral.word) :
    Guarded (startIn (.runs largest tolerance) sizes states) := by
  have hempty : Guarded { policy := .runs largest tolerance, board := { states } } := by
    refine Tidy.guarded ⟨⟨largest, tolerance, rfl⟩, Roster.lists_nil, ?_⟩ ?_ ?_
    · simp [Roster.newestFirst]
    · simp [AllDone]
    · simp
  exact (play_spec (play_push _ sizes)).2 hempty hword

end Acts

/-- A call of a policy that merges runs is restrained, whatever others do meanwhile; one that nobody
disturbs comes to its order or its answer, or waits. Where scheduling claims the members, there is
never more than one unfinished job. -/
theorem runs_restrained (largest tolerance : Nat) :
    (∀ full added byMerge ms last,
      Call.Course (.start (.runs largest tolerance) full added byMerge) ms last →
        Call.Restrained largest tolerance full ms last) ∧
    (∀ full added byMerge board, ∃ ms last,
      Call.Course (.start (.runs largest tolerance) full added byMerge) ms last ∧
        (∀ m ∈ ms, m.On board) ∧
        (last.Decided ∨ ∃ observed, last.phase = .asleep observed)) ∧
    ∀ sizes states acts r,
      (startIn (.runs largest tolerance) sizes states).play acts = some r →
        r.nextSerial ≤ Numeral.word → r.unfinished ≤ 1 := by
  refine ⟨?_, ?_, ?_⟩
  · intro full added byMerge ms last hcourse
    exact Call.restrained_of_course hcourse
  · intro full added byMerge board
    rcases hsettle : Call.settle board (.start (.runs largest tolerance) full added byMerge) with
      ⟨board', last⟩
    obtain ⟨⟨ms, hcourse, hon⟩, hstill, -⟩ := Call.settle_spec hsettle
    exact ⟨ms, last, hcourse, fun m hm => (hon m hm).1, hstill⟩
  · intro sizes states acts r hplay hword
    obtain ⟨hle, hkeeps⟩ := play_spec hplay
    exact (hkeeps (guarded_startIn (Nat.le_trans hle hword)) hword).single

/-- A flush has two components merged that are too large together. The next one finds them claimed,
and schedules nothing, although it asks for a merge of all. A call that orders the same merge of a
closed queue returns the error. -/
theorem second_flush_defers :
    (∃ r, (startIn (.runs 100 3) [60, 60] {}).play [.flush 10 false, .flush 5 true] = some r ∧
      r.jobs.map (fun job => (job.full, job.members.map Component.serial)) = [(false, [1, 0])] ∧
      r.board.metrics.scheduled = 1 ∧ r.board.metrics.deferred = 1 ∧ r.unfinished ≤ 1) ∧
    ∃ ms last, Call.Course (.start (.runs 100 3) false ⟨1, .single 1, 60, none⟩ true) ms last ∧
      Call.Restrained 100 3 false ms last ∧ (Call.orders ms last).length = 1 ∧
      last.answer? = some (.error (.refusal .queueClosed)) := by
  have hcourse : Call.Course (.start (.runs 100 3) false ⟨1, .single 1, 60, none⟩ true) _ _ :=
    .reply (startIn (.runs 100 3) [60, 60] {}).board (.error (.refusal .queueClosed))
      (.step (b := (startIn (.runs 100 3) [60, 60] {}).board)
      (.step (b := (startIn (.runs 100 3) [60, 60] {}).board)
      (.step (b := (startIn (.runs 100 3) [60, 60] {}).board)
      (.step (b := (startIn (.runs 100 3) [60, 60] {}).board)
      (.step (b := (startIn (.runs 100 3) [60, 60] {}).board) .nil rfl) rfl) rfl) rfl) rfl) rfl
  exact ⟨⟨_, rfl, rfl, rfl, rfl,
      (runs_restrained 100 3).2.2 [60, 60] {} [.flush 10 false, .flush 5 true] _ rfl (by decide)⟩,
    _, _, hcourse, (runs_restrained 100 3).1 _ _ _ _ _ hcourse, rfl, rfl⟩

end Rehearsal

end Strata
