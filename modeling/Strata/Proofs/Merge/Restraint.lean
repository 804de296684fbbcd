import Strata.Proofs.Merge.Call

/-!
# What one call of the policy orders

A call of the policy that merges runs is followed from its first moment on, while the others may do
anything to the board in between and an order may be answered in any way. What it has gone through
is kept as a list of moments; whatever is true of it stays true as the list grows. A call that had
to wait orders nothing, and neither does one that has seen a component that is not free. Any other
orders what the sizes of the components ask for, once, and answers as its order was answered.
-/

namespace Strata

namespace Call

/-- A moment of a call: where it stands, the board it finds, the one it leaves, and the answer to
its order if it takes one. -/
structure Moment where
  phase : Phase
  found : Board
  left : Board
  reply : Option (Except Error Bool) := none

/-- What a call goes through. Nothing is said of what happens to the board between two moments, nor
of how an order is answered. -/
inductive Course (first : Call) : List Moment → Call → Prop where
  | nil : Course first [] first
  | step {ms : List Moment} {c d : Call} {b b' : Board} (before : Course first ms c)
      (h : c.step b = some (b', d)) : Course first (ms ++ [⟨c.phase, b, b', none⟩]) d
  | reply {ms : List Moment} {c : Call} {order : Order} (b : Board) (answer : Except Error Bool)
      (before : Course first ms c) (h : c.order? = some order) :
      Course first (ms ++ [⟨c.phase, b, (c.reply b answer).1, some answer⟩]) (c.reply b answer).2

/-- Two boards on which as many merges are counted as scheduled. -/
def SameCounts (b b' : Board) : Prop :=
  b'.metrics.scheduled = b.metrics.scheduled ∧
    b'.metrics.fullScheduled = b.metrics.fullScheduled

namespace Moment

/-- The order that is carried out at a moment. -/
def order? (m : Moment) : Option Order :=
  match m.phase with
  | .ordered order => some order
  | _ => none

/-- A moment at which the call has to wait. -/
def Waits (m : Moment) : Prop := ∃ observed, m.phase = .drowse observed

/-- A moment at which the call takes down the components, oldest first, to schedule a merge. -/
def Takes (m : Moment) (listed : List Component) : Prop :=
  m.phase = .survey ∧ m.found.roster.oldestFirst = listed

/-- A moment at which the call reads the state of a component. -/
def Sees (m : Moment) (c : Component) (s : State) : Prop :=
  (∃ listed rest, m.phase = .inspect listed (c :: rest)) ∧ m.found.state c = s

/-- A merge is counted where the answer is that it was scheduled, and nowhere else. Merges of all
components that were asked for have a count of their own. -/
def Counts (full : Bool) (m : Moment) : Prop :=
  match m.reply, full with
  | some (.ok true), false =>
    m.left.metrics = { m.found.metrics with scheduled := m.found.metrics.scheduled + 1 }
  | some (.ok true), true =>
    m.left.metrics = { m.found.metrics with fullScheduled := m.found.metrics.fullScheduled + 1 }
  | _, _ => SameCounts m.found m.left

end Moment

/-- A call that had to wait. -/
def Waited (ms : List Moment) : Prop := ∃ m ∈ ms, m.Waits

/-- A call that has taken down the components, to schedule a merge. -/
def Took (ms : List Moment) (listed : List Component) : Prop := ∃ m ∈ ms, m.Takes listed

/-- A call that has read the state of a component. -/
def Saw (ms : List Moment) (c : Component) (s : State) : Prop := ∃ m ∈ ms, m.Sees c s

/-- A call that has seen a component that is not free. -/
def Deferred (ms : List Moment) : Prop := ∃ c s, Saw ms c s ∧ s ≠ .readable

/-- A call that has taken down components and seen all of them free. -/
def Passed (ms : List Moment) (listed : List Component) : Prop :=
  Took ms listed ∧ ∀ c ∈ listed, Saw ms c .readable

/-- The orders of a call: those that were answered, and the one that is not yet. -/
def orders (ms : List Moment) (last : Call) : List Order :=
  ms.filterMap Moment.order? ++ last.order?.toList

/-- What components that are all free ask for, given oldest first. -/
def wanted (largest tolerance : Nat) (full : Bool) (listed : List Component) : Option Order :=
  if full then some .everything
  else (Run.select largest tolerance (listed.map Component.size)).map fun run =>
    .run (run.pick listed).reverse

/-- An order that may be given for components, oldest first: all of them on request, and otherwise
small ones that stand together, newest first. -/
def Suits (largest : Nat) (full : Bool) (listed : List Component) : Order → Prop
  | .everything => full = true
  | .run members => full = false ∧ members ≠ [] ∧ members <:+: listed.reverse ∧
      ∀ c ∈ members, c ∈ listed ∧ c.size ≤ largest

/-- A call that is through with the components: it has ordered, or has its answer. -/
def Decided (c : Call) : Prop :=
  (∃ order, c.order? = some order) ∨ ∃ answer, c.answer? = some answer

/-- What a call of the policy that merges runs may do, as far as it has come. -/
structure Restrained (largest tolerance : Nat) (full : Bool) (ms : List Moment) (last : Call) :
    Prop where
  /-- It orders at most one merge. -/
  once : (orders ms last).length ≤ 1
  /-- It orders none once it had to wait, whatever it finds later. -/
  waited : Waited ms → orders ms last = []
  /-- It orders none if a component is not free. -/
  deferred : Deferred ms → orders ms last = []
  /-- Otherwise it orders what the sizes ask for, and nothing where they ask for nothing. -/
  due : ¬ Waited ms → ¬ Deferred ms → last.Decided →
    ∃ listed, Passed ms listed ∧ orders ms last = (wanted largest tolerance full listed).toList
  /-- What it orders is all components on request, and small ones that stand together otherwise. It
  has seen all of them free. -/
  suited : ∀ order ∈ orders ms last, ∃ listed, Passed ms listed ∧ Suits largest full listed order
  /-- It returns the error its order was answered with, and no other. -/
  answered : ∀ m ∈ ms, ∀ answer, m.reply = some answer →
    last.answer? = some (answer.map fun _ => ())
  quiet : (∀ m ∈ ms, m.reply = none) → ∀ answer, last.answer? = some answer → answer = .ok ()
  /-- It counts a merge when it has learnt that it was scheduled. -/
  counted : ∀ m ∈ ms, m.Counts full

section Growth

variable {ms : List Moment} {m : Moment}

theorem waited_concat_iff : Waited (ms ++ [m]) ↔ Waited ms ∨ m.Waits := by
  simp [Waited, or_and_right, exists_or]

theorem took_concat_iff {listed : List Component} :
    Took (ms ++ [m]) listed ↔ Took ms listed ∨ m.Takes listed := by
  simp [Took, or_and_right, exists_or]

theorem saw_concat_iff {c : Component} {s : State} :
    Saw (ms ++ [m]) c s ↔ Saw ms c s ∨ m.Sees c s := by
  simp [Saw, or_and_right, exists_or]

theorem deferred_concat_iff :
    Deferred (ms ++ [m]) ↔ Deferred ms ∨ ∃ c s, m.Sees c s ∧ s ≠ .readable := by
  simp [Deferred, saw_concat_iff, or_and_right, exists_or]

/-- What was seen before stays seen. -/
theorem passed_concat {listed : List Component} (h : Passed ms listed) :
    Passed (ms ++ [m]) listed :=
  ⟨took_concat_iff.2 (.inl h.1), fun c hc => saw_concat_iff.2 (.inl (h.2 c hc))⟩

end Growth

/-- A call that has not ordered anything so far. -/
structure Calm (ms : List Moment) : Prop where
  orders : ∀ m ∈ ms, m.order? = none
  replies : ∀ m ∈ ms, m.reply = none

/-- A call that had no reason so far not to order a merge. -/
structure Clear (ms : List Moment) : Prop extends Calm ms where
  awake : ¬ Waited ms
  free : ¬ Deferred ms

theorem clear_nil : Clear [] where
  orders := by simp
  replies := by simp
  awake := by simp [Waited]
  free := by simp [Deferred, Saw]

theorem Calm.concat {ms : List Moment} {m : Moment} (h : Calm ms) (horder : m.order? = none)
    (hreply : m.reply = none) : Calm (ms ++ [m]) where
  orders := by
    simp only [List.mem_append, List.mem_singleton]
    rintro other (hmem | rfl)
    · exact h.orders other hmem
    · exact horder
  replies := by
    simp only [List.mem_append, List.mem_singleton]
    rintro other (hmem | rfl)
    · exact h.replies other hmem
    · exact hreply

theorem Clear.concat {ms : List Moment} {m : Moment} (h : Clear ms) (horder : m.order? = none)
    (hreply : m.reply = none) (hawake : ¬ m.Waits) (hfree : ∀ c s, m.Sees c s → s = .readable) :
    Clear (ms ++ [m]) where
  toCalm := h.toCalm.concat horder hreply
  awake := by
    rw [waited_concat_iff, not_or]
    exact ⟨h.awake, hawake⟩
  free := by
    rw [deferred_concat_iff, not_or]
    refine ⟨h.free, ?_⟩
    rintro ⟨c, s, hsees, hs⟩
    exact hs (hfree c s hsees)

/-- How a call comes to its answer. -/
inductive Verdict (largest tolerance : Nat) (full : Bool) (ms : List Moment) :
    Except Error Unit → Prop where
  | waited (hcalm : Calm ms) (hwaited : Waited ms) : Verdict largest tolerance full ms (.ok ())
  | deferred (hcalm : Calm ms) (hdeferred : Deferred ms) :
      Verdict largest tolerance full ms (.ok ())
  | content {listed : List Component} (hclear : Clear ms) (hpassed : Passed ms listed)
      (hwanted : wanted largest tolerance full listed = none) :
      Verdict largest tolerance full ms (.ok ())
  | ordered {before : List Moment} {listed : List Component} {order : Order} {m : Moment}
      {answer : Except Error Bool} (hclear : Clear before) (hpassed : Passed before listed)
      (hwanted : wanted largest tolerance full listed = some order)
      (horder : m.phase = .ordered order) (hreply : m.reply = some answer)
      (hms : ms = before ++ [m]) :
      Verdict largest tolerance full ms (answer.map fun _ => ())

/-- What is known of a call that counts small components: whether it had to wait. -/
def Pending (waited : Bool) (ms : List Moment) : Prop :=
  if waited then Calm ms ∧ Waited ms else Clear ms

/-- What is known of a call by where it stands. -/
def Knows (largest tolerance : Nat) (full : Bool) (ms : List Moment) : Phase → Prop
  | .wake => Clear ms
  | .observe waited => Pending waited ms
  | .look waited _ => Pending waited ms
  | .count waited _ _ _ => Pending waited ms
  | .drowse _ => Calm ms
  | .asleep _ => Calm ms ∧ Waited ms
  | .survey => Clear ms
  | .inspect listed rest => Clear ms ∧ Took ms listed ∧
      ∃ seen, listed = seen ++ rest ∧ ∀ c ∈ seen, Saw ms c .readable
  | .ordered order => Clear ms ∧
      ∃ listed, Passed ms listed ∧ wanted largest tolerance full listed = some order
  | .finished answer => Verdict largest tolerance full ms answer

section Step

variable {largest tolerance : Nat} {full : Bool} {ms : List Moment} {b b' : Board}

/-- A call that counts small components reads states, too, but not to schedule a merge. -/
theorem Pending.concat {waited : Bool} {m : Moment} (h : Pending waited ms)
    (horder : m.order? = none) (hreply : m.reply = none) (hawake : ¬ m.Waits)
    (hfree : ∀ c s, ¬ m.Sees c s) : Pending waited (ms ++ [m]) := by
  cases waited with
  | true => exact ⟨h.1.concat horder hreply, waited_concat_iff.2 (.inl h.2)⟩
  | false => exact Clear.concat h horder hreply hawake fun c s hsees => absurd hsees (hfree c s)

theorem Pending.calm {waited : Bool} (h : Pending waited ms) : Calm ms := by
  cases waited with
  | true => exact h.1
  | false => exact Clear.toCalm h

/-- What is chosen is what is wanted of components that are all free. -/
theorem choose_runs (listed : List Component) :
    choose (.runs largest tolerance) full listed =
      match wanted largest tolerance full listed with
      | some order => .ordered order
      | none => .finished (.ok ()) := by
  unfold choose wanted
  by_cases hfull : full
  · simp [hfull]
  · cases hrun : Run.select largest tolerance (listed.map Component.size) with
    | none => simp [hfull, hrun]
    | some run => simp [hfull, hrun]

theorem knows_of_wanted {listed : List Component} (hclear : Clear ms) (hpassed : Passed ms listed) :
    Knows largest tolerance full ms (choose (.runs largest tolerance) full listed) := by
  rw [choose_runs]
  cases hwanted : wanted largest tolerance full listed with
  | none => exact .content hclear hpassed hwanted
  | some order => exact ⟨hclear, listed, hpassed, hwanted⟩

/-- What is known along a step of a call. -/
theorem knows_step {phase : Phase} {d : Call} (hknows : Knows largest tolerance full ms phase)
    (h : step b ⟨.runs largest tolerance, full, phase⟩ = some (b', d)) :
    Knows largest tolerance full (ms ++ [⟨phase, b, b', none⟩]) d.phase := by
  cases phase with
  | wake =>
    obtain ⟨-, rfl⟩ := Prod.mk.inj (Option.some.inj h)
    exact hknows.concat rfl rfl (by simp [Moment.Waits]) (by simp [Moment.Sees])
  | observe waited =>
    obtain ⟨-, rfl⟩ := Prod.mk.inj (Option.some.inj h)
    exact hknows.concat rfl rfl (by simp [Moment.Waits]) (by simp [Moment.Sees])
  | look waited observed =>
    obtain ⟨-, rfl⟩ := Prod.mk.inj (Option.some.inj h)
    exact hknows.concat rfl rfl (by simp [Moment.Waits]) (by simp [Moment.Sees])
  | count waited observed rest small =>
    have hpending : Pending waited (ms ++ [⟨.count waited observed rest small, b, b', none⟩]) :=
      Pending.concat hknows rfl rfl (by simp [Moment.Waits]) (by simp [Moment.Sees])
    have hadvances : Phase.Advances b (.runs largest tolerance) full
        (.count waited observed rest small) d.phase := Phase.advances_of_step h
    generalize d.phase = next at hadvances ⊢
    cases hadvances with
    | count => exact hpending
    | counted =>
      cases waited with
      | true => exact .waited hpending.1 hpending.2
      | false => exact hpending
    | block => exact hpending.calm
  | drowse observed =>
    have hcalm : Calm (ms ++ [⟨.drowse observed, b, b', none⟩]) := hknows.concat rfl rfl
    have hwaited : Waited (ms ++ [⟨.drowse observed, b, b', none⟩]) :=
      waited_concat_iff.2 (.inr ⟨observed, rfl⟩)
    have hadvances : Phase.Advances b (.runs largest tolerance) full (.drowse observed) d.phase :=
      Phase.advances_of_step h
    generalize d.phase = next at hadvances ⊢
    cases hadvances with
    | sleep => exact ⟨hcalm, hwaited⟩
    | pass => exact ⟨hcalm, hwaited⟩
  | asleep observed =>
    have hadvances : Phase.Advances b (.runs largest tolerance) full (.asleep observed) d.phase :=
      Phase.advances_of_step h
    generalize d.phase = next at hadvances ⊢
    cases hadvances with
    | leave => exact ⟨hknows.1.concat rfl rfl, waited_concat_iff.2 (.inl hknows.2)⟩
  | survey =>
    obtain ⟨-, rfl⟩ := Prod.mk.inj (Option.some.inj h)
    refine ⟨?_, took_concat_iff.2 (.inr ⟨rfl, rfl⟩), [], rfl, by simp⟩
    exact hknows.concat rfl rfl (by simp [Moment.Waits]) (by simp [Moment.Sees])
  | inspect listed rest =>
    obtain ⟨hclear, htook, seen, hlisted, hseen⟩ := hknows
    cases rest with
    | nil =>
      obtain ⟨-, rfl⟩ := Prod.mk.inj (Option.some.inj h)
      rw [List.append_nil] at hlisted
      have hpassed : Passed ms listed := ⟨htook, hlisted ▸ hseen⟩
      refine knows_of_wanted ?_ (passed_concat hpassed)
      exact hclear.concat rfl rfl (by simp [Moment.Waits]) (by simp [Moment.Sees])
    | cons c rest =>
      simp only [step] at h
      -- A component that is free joins those seen. Any other ends the call at once.
      split at h
      · rename_i hfree
        obtain ⟨-, rfl⟩ := Prod.mk.inj (Option.some.inj h)
        refine ⟨?_, took_concat_iff.2 (.inl htook), seen ++ [c], ?_, ?_⟩
        · refine hclear.concat rfl rfl (by simp [Moment.Waits]) ?_
          rintro d s ⟨⟨listed', rest', hphase⟩, rfl⟩
          obtain ⟨-, hcons⟩ := Phase.inspect.inj hphase
          rw [← (List.cons.inj hcons).1]
          exact hfree
        · rw [hlisted, List.append_assoc, List.singleton_append]
        · simp only [List.mem_append, List.mem_singleton]
          rintro d (hmem | rfl)
          · exact saw_concat_iff.2 (.inl (hseen d hmem))
          · exact saw_concat_iff.2 (.inr ⟨⟨listed, rest, rfl⟩, hfree⟩)
      · rename_i hbusy
        obtain ⟨-, rfl⟩ := Prod.mk.inj (Option.some.inj h)
        refine .deferred (hclear.toCalm.concat rfl rfl) ?_
        exact deferred_concat_iff.2 (.inr ⟨c, b.state c, ⟨⟨listed, rest, rfl⟩, rfl⟩, hbusy⟩)
  | ordered order => simp [step] at h
  | finished answer => simp [step] at h

/-- A step of a call counts no merge. -/
theorem sameCounts_step {c d : Call} (h : c.step b = some (b', d)) : SameCounts b b' := by
  obtain ⟨blocks, deferred, hmetrics⟩ := metrics_step h
  rw [SameCounts, hmetrics]
  exact ⟨rfl, rfl⟩

/-- An answer to an order is the answer of the call. -/
theorem reply_snd (b : Board) (c : Call) (answer : Except Error Bool) :
    (c.reply b answer).2 = { c with phase := .finished (answer.map fun _ => ()) } := by
  cases answer with
  | error e => rfl
  | ok scheduled => cases scheduled <;> rfl

theorem counts_reply {phase : Phase} (b : Board) (c : Call) (answer : Except Error Bool) :
    (⟨phase, b, (c.reply b answer).1, some answer⟩ : Moment).Counts c.full := by
  cases answer with
  | error e => exact ⟨rfl, rfl⟩
  | ok scheduled =>
    cases scheduled with
    | true =>
      obtain ⟨policy, full, phase⟩ := c
      cases full <;> rfl
    | false => exact ⟨rfl, rfl⟩

theorem order?_eq_some_iff {c : Call} {order : Order} :
    c.order? = some order ↔ c.phase = .ordered order := by
  unfold order?
  split
  · simp_all
  · simp_all

theorem answer?_eq_some_iff {c : Call} {answer : Except Error Unit} :
    c.answer? = some answer ↔ c.phase = .finished answer := by
  unfold answer?
  split
  · simp_all
  · simp_all

end Step

section Course

variable {largest tolerance : Nat} {full : Bool} {ms : List Moment} {first last : Call}

/-- What is known of a call at its first moment is known at any later one. -/
theorem knows_of_course (h : Course first ms last)
    (hpolicy : first.policy = .runs largest tolerance) (hfull : first.full = full)
    (hfirst : Knows largest tolerance full [] first.phase) :
    last.policy = .runs largest tolerance ∧ last.full = full ∧
      Knows largest tolerance full ms last.phase ∧ ∀ m ∈ ms, m.Counts full := by
  induction h with
  | nil => exact ⟨hpolicy, hfull, hfirst, by simp⟩
  | @step ms c d b b' before h ih =>
    obtain ⟨hc, hcfull, hknows, hcounts⟩ := ih
    obtain ⟨policy, full', phase⟩ := c
    obtain rfl : policy = .runs largest tolerance := hc
    obtain rfl : full' = full := hcfull
    obtain ⟨-, -, -, hd, -⟩ := step_frame h
    refine ⟨hd ▸ rfl, hd ▸ rfl, knows_step hknows h, ?_⟩
    simp only [List.mem_append, List.mem_singleton]
    rintro m (hmem | rfl)
    · exact hcounts m hmem
    · exact sameCounts_step h
  | @reply ms c order b answer before h ih =>
    obtain ⟨hc, hcfull, hknows, hcounts⟩ := ih
    have hphase := order?_eq_some_iff.1 h
    rw [hphase] at hknows
    obtain ⟨hclear, listed, hpassed, hwanted⟩ := hknows
    rw [reply_snd]
    refine ⟨hc, hcfull, .ordered hclear hpassed hwanted hphase rfl rfl, ?_⟩
    simp only [List.mem_append, List.mem_singleton]
    rintro m (hmem | rfl)
    · exact hcounts m hmem
    · rw [← hcfull]
      exact counts_reply b c answer

/-- At its first moment a call has gone through nothing. -/
theorem knows_start (added : Component) (byMerge : Bool) :
    Knows largest tolerance full []
      (start (.runs largest tolerance) full added byMerge).phase := by
  rcases phase_start (.runs largest tolerance) full added byMerge with
    h | ⟨-, h⟩ | h | ⟨hnever, -⟩
  · rw [h]
    exact clear_nil
  · rw [h]
    exact clear_nil
  · rw [h]
    exact clear_nil
  · contradiction

end Course

section Restrained

variable {largest tolerance : Nat} {full : Bool} {ms : List Moment} {last : Call}

/-- What is wanted are all components on request, and otherwise small ones that stand together. -/
theorem suits_of_wanted {listed : List Component} {order : Order}
    (h : wanted largest tolerance full listed = some order) : Suits largest full listed order := by
  unfold wanted at h
  by_cases hfull : full
  · rw [if_pos hfull] at h
    obtain rfl := Option.some.inj h
    exact hfull
  · rw [if_neg hfull] at h
    obtain ⟨run, hrun, rfl⟩ := Option.map_eq_some_iff.1 h
    obtain ⟨hnonempty, hstop⟩ := Run.select_bounds hrun
    rw [List.length_map] at hstop
    refine ⟨eq_false_of_ne_true hfull, ?_, List.reverse_infix.2 (run.pick_infix listed), ?_⟩
    · have hlength := Run.length_pick hstop
      intro hnil
      rw [List.reverse_eq_nil_iff.1 hnil] at hlength
      simp only [List.length_nil] at hlength
      omega
    · intro c hc
      rw [List.mem_reverse] at hc
      refine ⟨(run.pick_infix listed).subset hc, ?_⟩
      apply Run.size_le_of_select hrun
      rw [Run.pick_map]
      exact List.mem_map_of_mem hc

theorem orders_of_calm (h : Calm ms) : orders ms last = last.order?.toList := by
  rw [orders, List.filterMap_eq_nil_iff.2 h.orders, List.nil_append]

/-- A call that has not ordered anything: it had to wait, has seen a component that is not free, is
not through with the components, or they ask for nothing. -/
theorem restrained_of_calm (hcalm : Calm ms) (hcounts : ∀ m ∈ ms, m.Counts full)
    (hlast : last.order? = none) (hanswer : ∀ answer, last.answer? = some answer → answer = .ok ())
    (hwhy : ¬ Waited ms → ¬ Deferred ms → last.Decided →
      ∃ listed, Passed ms listed ∧ wanted largest tolerance full listed = none) :
    Restrained largest tolerance full ms last := by
  have horders : orders ms last = [] := by
    rw [orders_of_calm hcalm, hlast]
    rfl
  exact {
    once := by simp [horders]
    waited := fun _ => horders
    deferred := fun _ => horders
    due := by
      intro hawake hfree hdecided
      obtain ⟨listed, hpassed, hwanted⟩ := hwhy hawake hfree hdecided
      refine ⟨listed, hpassed, ?_⟩
      rw [horders, hwanted]
      rfl
    suited := by simp [horders]
    answered := by
      intro m hm answer hreply
      rw [hcalm.replies m hm] at hreply
      contradiction
    quiet := fun _ => hanswer
    counted := hcounts }

/-- A call that has ordered what its components ask for. -/
theorem restrained_of_order {listed : List Component} {order : Order}
    (horders : orders ms last = [order]) (hawake : ¬ Waited ms) (hfree : ¬ Deferred ms)
    (hpassed : Passed ms listed) (hwanted : wanted largest tolerance full listed = some order)
    (hcounts : ∀ m ∈ ms, m.Counts full)
    (hanswered : ∀ m ∈ ms, ∀ answer, m.reply = some answer →
      last.answer? = some (answer.map fun _ => ()))
    (hquiet : (∀ m ∈ ms, m.reply = none) → last.answer? = none) :
    Restrained largest tolerance full ms last where
  once := by simp [horders]
  waited h := absurd h hawake
  deferred h := absurd h hfree
  due _ _ _ := by
    refine ⟨listed, hpassed, ?_⟩
    rw [horders, hwanted]
    rfl
  suited := by
    intro other hother
    rw [horders, List.mem_singleton] at hother
    rw [hother]
    exact ⟨listed, hpassed, suits_of_wanted hwanted⟩
  answered := hanswered
  quiet := by
    intro hnone answer hanswer
    rw [hquiet hnone] at hanswer
    contradiction
  counted := hcounts

/-- A call that has ordered a merge, and does not know yet what became of it. -/
theorem restrained_of_ordered {listed : List Component} {order : Order} (hclear : Clear ms)
    (hpassed : Passed ms listed) (hwanted : wanted largest tolerance full listed = some order)
    (hcounts : ∀ m ∈ ms, m.Counts full) (hlast : last.phase = .ordered order) :
    Restrained largest tolerance full ms last := by
  refine restrained_of_order ?_ hclear.awake hclear.free hpassed hwanted hcounts ?_ ?_
  · rw [orders_of_calm hclear.toCalm, order?_eq_some_iff.2 hlast]
    rfl
  · intro m hm answer hreply
    rw [hclear.replies m hm] at hreply
    contradiction
  · intro _
    simp [answer?, hlast]

/-- A call whose order was answered. -/
theorem restrained_of_answered {before : List Moment} {m : Moment} {listed : List Component}
    {order : Order} {answer : Except Error Bool} (hclear : Clear before)
    (hpassed : Passed before listed) (hwanted : wanted largest tolerance full listed = some order)
    (horder : m.phase = .ordered order) (hreply : m.reply = some answer)
    (hcounts : ∀ other ∈ before ++ [m], other.Counts full)
    (hlast : last.phase = .finished (answer.map fun _ => ())) :
    Restrained largest tolerance full (before ++ [m]) last := by
  refine restrained_of_order ?_ ?_ ?_ (passed_concat hpassed) hwanted hcounts ?_ ?_
  · rw [orders, List.filterMap_append, List.filterMap_eq_nil_iff.2 hclear.orders]
    simp [Moment.order?, horder, order?, hlast]
  · rw [waited_concat_iff, not_or]
    refine ⟨hclear.awake, ?_⟩
    simp [Moment.Waits, horder]
  · rw [deferred_concat_iff, not_or]
    refine ⟨hclear.free, ?_⟩
    simp [Moment.Sees, horder]
  · simp only [List.mem_append, List.mem_singleton]
    rintro other (hmem | rfl) given hgiven
    · rw [hclear.replies other hmem] at hgiven
      contradiction
    · obtain rfl := Option.some.inj (hreply.symm.trans hgiven)
      exact answer?_eq_some_iff.2 hlast
  · intro hnone
    rw [hnone m (by simp)] at hreply
    contradiction

/-- A call that is not through with the components has not ordered anything. -/
theorem calm_of_knows (h : Knows largest tolerance full ms last.phase) (hlast : ¬ last.Decided) :
    Calm ms := by
  cases hphase : last.phase with
  | ordered order => exact absurd (.inl ⟨order, order?_eq_some_iff.2 hphase⟩) hlast
  | finished answer => exact absurd (.inr ⟨answer, answer?_eq_some_iff.2 hphase⟩) hlast
  | _ =>
    rw [hphase] at h
    first
    | exact Clear.toCalm h
    | exact Pending.calm h
    | exact h
    | exact h.1
    | exact h.1.toCalm

/-- What is known of a call is all that is asked of it. -/
theorem restrained_of_knows (h : Knows largest tolerance full ms last.phase)
    (hcounts : ∀ m ∈ ms, m.Counts full) : Restrained largest tolerance full ms last := by
  by_cases hdecided : last.Decided
  · rcases hdecided with ⟨order, horder⟩ | ⟨answer, hanswer⟩
    · rw [order?_eq_some_iff] at horder
      rw [horder] at h
      obtain ⟨hclear, listed, hpassed, hwanted⟩ := h
      exact restrained_of_ordered hclear hpassed hwanted hcounts horder
    · have hphase := answer?_eq_some_iff.1 hanswer
      have hnone : last.order? = none := by simp [order?, hphase]
      have hgiven : ∀ given, last.answer? = some given → given = answer := by
        intro given hgiven
        exact Option.some.inj (hgiven.symm.trans hanswer)
      rw [hphase] at h
      cases h with
      | waited hcalm hwaited =>
        exact restrained_of_calm hcalm hcounts hnone hgiven fun hawake => absurd hwaited hawake
      | deferred hcalm hdeferred =>
        exact restrained_of_calm hcalm hcounts hnone hgiven fun _ hfree => absurd hdeferred hfree
      | content hclear hpassed hwanted =>
        exact restrained_of_calm hclear.toCalm hcounts hnone hgiven fun _ _ _ =>
          ⟨_, hpassed, hwanted⟩
      | ordered hclear hpassed hwanted horder hreply hms =>
        subst hms
        exact restrained_of_answered hclear hpassed hwanted horder hreply hcounts hphase
  · have hopen := not_or.1 hdecided
    refine restrained_of_calm (calm_of_knows h hdecided) hcounts ?_ ?_ ?_
    · exact Option.eq_none_iff_forall_ne_some.2 fun order horder => hopen.1 ⟨order, horder⟩
    · exact fun answer hanswer => absurd ⟨answer, hanswer⟩ hopen.2
    · exact fun _ _ h => absurd h hdecided

/-- Every call of the policy that merges runs is restrained, as far as it comes. -/
theorem restrained_of_course {added : Component} {byMerge : Bool}
    (h : Course (start (.runs largest tolerance) full added byMerge) ms last) :
    Restrained largest tolerance full ms last := by
  obtain ⟨-, -, hknows, hcounts⟩ := knows_of_course h rfl rfl (knows_start added byMerge)
  exact restrained_of_knows hknows hcounts

end Restrained

end Call

end Strata
