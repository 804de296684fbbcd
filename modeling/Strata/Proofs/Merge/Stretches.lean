import Strata.Proofs.Merge.Selection

/-!
# The run that is selected, told from the stretches

Walls cut a list of sizes into stretches. The run selected is the shortest part at the oldest end of
a stretch that exceeds the largest size, of the oldest stretch that has one. Where no stretch has
one, it is the stretch that reaches the newest component, if that has as many members as are
tolerated. Otherwise there is none. The scan knows of one stretch at a time: the one it is in, of
which it has seen the members up to its place.
-/

namespace Strata

namespace Run

variable {largest tolerance : Nat} {sizes : List Nat}

theorem mem_pick_iff {α : Type} {run : Run} {xs : List α} {x : α} :
    x ∈ run.pick xs ↔ ∃ place, run.start ≤ place ∧ place < run.stop ∧ xs[place]? = some x := by
  simp only [pick, List.mem_iff_getElem?, List.getElem?_drop, List.getElem?_take]
  constructor
  · rintro ⟨offset, hoffset⟩
    split at hoffset
    · exact ⟨run.start + offset, Nat.le_add_right _ _, ‹_›, hoffset⟩
    · contradiction
  · rintro ⟨place, hle, hlt, hx⟩
    refine ⟨place - run.start, ?_⟩
    rwa [Nat.add_sub_cancel' hle, if_pos hlt]

/-- A run grows by the member behind it. -/
theorem pick_concat {α : Type} {start index : Nat} {xs : List α} {x : α} (hle : start ≤ index)
    (hx : xs[index]? = some x) :
    (⟨start, index + 1⟩ : Run).pick xs = (⟨start, index⟩ : Run).pick xs ++ [x] := by
  obtain ⟨hlt, -⟩ := List.getElem?_eq_some_iff.1 hx
  have hlength : start ≤ (xs.take index).length := by
    rw [List.length_take]
    omega
  rw [pick, List.take_add_one, hx, Option.toList_some, List.drop_append_of_le_length hlength, pick]

/-- A run that ends sooner is the first part of one that begins with it. -/
theorem pick_mono {α : Type} (start : Nat) {stop stop' : Nat} (h : stop ≤ stop') (xs : List α) :
    (⟨start, stop⟩ : Run).pick xs <+: (⟨start, stop'⟩ : Run).pick xs :=
  (List.take_prefix_take_left h).drop start

/-- A run of components that are not above the largest size, between two walls or the ends of the
list. -/
structure Stretch (largest : Nat) (sizes : List Nat) (run : Run) : Prop where
  filled : run.start < run.stop
  within : run.stop ≤ sizes.length
  small : ∀ size ∈ run.pick sizes, size ≤ largest
  opens : ∀ place size, run.start = place + 1 → sizes[place]? = some size → largest < size
  closes : ∀ size, sizes[run.stop]? = some size → largest < size

/-- The total of a run, which stops at the largest number of 64 bits, is above the largest size. -/
def Exceeds (largest : Nat) (sizes : List Nat) (run : Run) : Prop :=
  largest < min (run.pick sizes).sum (Numeral.word - 1)

/-- No part at the oldest end of a run exceeds the largest size. -/
def Light (largest : Nat) (sizes : List Nat) (run : Run) : Prop :=
  ∀ stop, stop ≤ run.stop → ¬ Exceeds largest sizes ⟨run.start, stop⟩

/-- The run that is to be merged. -/
inductive Selected (largest tolerance : Nat) (sizes : List Nat) : Run → Prop
  | heavy {stretch : Run} {stop : Nat} (hstretch : Stretch largest sizes stretch)
      (hstop : stop ≤ stretch.stop) (hexceeds : Exceeds largest sizes ⟨stretch.start, stop⟩)
      (hshortest : ∀ sooner, sooner < stop → ¬ Exceeds largest sizes ⟨stretch.start, sooner⟩)
      (holdest : ∀ older, Stretch largest sizes older → older.start < stretch.start →
        Light largest sizes older) : Selected largest tolerance sizes ⟨stretch.start, stop⟩
  | many {stretch : Run} (hstretch : Stretch largest sizes stretch)
      (hnewest : stretch.stop = sizes.length) (hmembers : tolerance ≤ stretch.stop - stretch.start)
      (hlight : ∀ other, Stretch largest sizes other → Light largest sizes other) :
      Selected largest tolerance sizes stretch

theorem Exceeds.mono {start stop stop' : Nat} (h : Exceeds largest sizes ⟨start, stop⟩)
    (hle : stop ≤ stop') : Exceeds largest sizes ⟨start, stop'⟩ := by
  have hsum := sum_le_of_infix (pick_mono start hle sizes).isInfix
  unfold Exceeds at h ⊢
  omega

theorem Exceeds.filled {run : Run} (h : Exceeds largest sizes run) : run.start < run.stop := by
  by_contra hnot
  have hnil : run.pick sizes = [] := by
    rw [pick, List.drop_eq_nil_iff, List.length_take]
    omega
  simp [Exceeds, hnil] at h

theorem Stretch.size_le {stretch : Run} (h : Stretch largest sizes stretch) {place size : Nat}
    (hle : stretch.start ≤ place) (hlt : place < stretch.stop) (hsize : sizes[place]? = some size) :
    size ≤ largest :=
  h.small size (mem_pick_iff.2 ⟨place, hle, hlt, hsize⟩)

theorem Stretch.exists_size {stretch : Run} (h : Stretch largest sizes stretch) (place : Nat)
    (hlt : place < stretch.stop) : ∃ size, sizes[place]? = some size :=
  ⟨_, List.getElem?_eq_getElem (Nat.lt_of_lt_of_le hlt h.within)⟩

/-- Two stretches with a place in common begin at the same place: behind its first place a stretch
has no wall. -/
theorem Stretch.start_le {one other : Run} (hone : Stretch largest sizes one)
    (hother : Stretch largest sizes other) (hlt : other.start < one.stop) :
    other.start ≤ one.start := by
  by_contra hnot
  obtain ⟨place, hplace⟩ : ∃ place, other.start = place + 1 := ⟨other.start - 1, by omega⟩
  obtain ⟨size, hsize⟩ := hone.exists_size place (by omega)
  have hwall := hother.opens place size hplace hsize
  have hsmall := hone.size_le (by omega) (by omega) hsize
  omega

theorem Stretch.stop_le {one other : Run} (hone : Stretch largest sizes one)
    (hother : Stretch largest sizes other) (hle : other.start ≤ one.stop) :
    other.stop ≤ one.stop := by
  by_contra hnot
  obtain ⟨size, hsize⟩ := hother.exists_size one.stop (by omega)
  have hwall := hone.closes size hsize
  have hsmall := hother.size_le hle (by omega) hsize
  omega

/-- Each place is in one stretch at most. -/
theorem Stretch.eq_of_overlap {one other : Run} (hone : Stretch largest sizes one)
    (hother : Stretch largest sizes other) (hleft : other.start < one.stop)
    (hright : one.start < other.stop) : one = other := by
  have hstart := Nat.le_antisymm (hother.start_le hone hright) (hone.start_le hother hleft)
  have hstop := Nat.le_antisymm (hother.stop_le hone (Nat.le_of_lt hright))
    (hone.stop_le hother (Nat.le_of_lt hleft))
  rcases one with ⟨start, stop⟩
  rcases other with ⟨start', stop'⟩
  simp_all

/-- A run behind a wall goes on to the next wall, or to the end. -/
theorem exists_stretch {start index : Nat} (begun : start < index) (within : index ≤ sizes.length)
    (small : ∀ size ∈ (⟨start, index⟩ : Run).pick sizes, size ≤ largest)
    (opens : ∀ place size, start = place + 1 → sizes[place]? = some size → largest < size) :
    ∃ stop, index ≤ stop ∧ Stretch largest sizes ⟨start, stop⟩ := by
  induction hleft : sizes.length - index generalizing index with
  | zero =>
    have hend : sizes[index]? = none := List.getElem?_eq_none (by omega)
    exact ⟨index, Nat.le_refl _, begun, within, small, opens, by simp [hend]⟩
  | succ left ih =>
    have hsize : sizes[index]? = some sizes[index] := List.getElem?_eq_getElem (by omega)
    by_cases hwall : largest < sizes[index]
    · refine ⟨index, Nat.le_refl _, begun, within, small, opens, ?_⟩
      simp only [hsize, Option.some.injEq]
      rintro size rfl
      exact hwall
    · have hsmall : ∀ size ∈ (⟨start, index + 1⟩ : Run).pick sizes, size ≤ largest := by
        rw [pick_concat (Nat.le_of_lt begun) hsize]
        simp only [List.mem_append, List.mem_singleton]
        rintro size (hmem | rfl)
        · exact small size hmem
        · exact Nat.not_lt.1 hwall
      obtain ⟨stop, hle, hstretch⟩ := ih (Nat.lt_succ_of_lt begun) (by omega) hsmall (by omega)
      exact ⟨stop, by omega, hstretch⟩

/-- One run at most is to be merged. -/
theorem Selected.unique {run run' : Run} (h : Selected largest tolerance sizes run)
    (h' : Selected largest tolerance sizes run') : run = run' := by
  cases h with
  | @heavy stretch stop hstretch hstop hexceeds hshortest holdest =>
    cases h' with
    | @heavy stretch' stop' hstretch' hstop' hexceeds' hshortest' holdest' =>
      rcases Nat.lt_trichotomy stretch.start stretch'.start with hlt | heq | hlt
      · exact absurd hexceeds (holdest' stretch hstretch hlt stop hstop)
      · rw [← heq] at hexceeds' hshortest' ⊢
        have hle : stop ≤ stop' := Nat.not_lt.1 fun hlt => hshortest stop' hlt hexceeds'
        have hle' : stop' ≤ stop := Nat.not_lt.1 fun hlt => hshortest' stop hlt hexceeds
        rw [Nat.le_antisymm hle hle']
      · exact absurd hexceeds' (holdest stretch' hstretch' hlt stop' hstop')
    | many _ _ _ hlight => exact absurd hexceeds (hlight stretch hstretch stop hstop)
  | many hstretch hnewest hmembers hlight =>
    cases h' with
    | heavy hstretch' hstop' hexceeds' _ _ =>
      exact absurd hexceeds' (hlight _ hstretch' _ hstop')
    | many hstretch' hnewest' _ _ =>
      have hfilled := hstretch.filled
      have hfilled' := hstretch'.filled
      exact hstretch.eq_of_overlap hstretch' (by omega) (by omega)

/-- What the scan has found at place `index`: the run under way begins a stretch, and neither it nor
a stretch before it exceeds the largest size. -/
structure Scanned (largest : Nat) (sizes : List Nat) (start index : Nat) : Prop where
  begun : start ≤ index
  within : index ≤ sizes.length
  small : ∀ size ∈ (⟨start, index⟩ : Run).pick sizes, size ≤ largest
  opens : ∀ place size, start = place + 1 → sizes[place]? = some size → largest < size
  light : ¬ Exceeds largest sizes ⟨start, index⟩
  older : ∀ stretch, Stretch largest sizes stretch → stretch.start < start →
    Light largest sizes stretch

namespace Scanned

variable {start index size : Nat}

theorem zero (largest : Nat) (sizes : List Nat) : Scanned largest sizes 0 0 where
  begun := Nat.le_refl 0
  within := Nat.zero_le _
  small := by simp [pick]
  opens := by omega
  light := fun h => Nat.lt_irrefl 0 h.filled
  older := by omega

/-- Among the members of the run under way there is no wall, behind which a stretch could begin. -/
theorem start_le (h : Scanned largest sizes start index) {stretch : Run}
    (hstretch : Stretch largest sizes stretch) (hle : stretch.start ≤ index) :
    stretch.start ≤ start := by
  by_contra hnot
  obtain ⟨place, hplace⟩ : ∃ place, stretch.start = place + 1 := ⟨stretch.start - 1, by omega⟩
  have hwithin := h.within
  have hsize : sizes[place]? = some sizes[place] := List.getElem?_eq_getElem (by omega)
  have hwall := hstretch.opens place _ hplace hsize
  have hsmall := h.small _
    (mem_pick_iff.2 ⟨place, by dsimp only; omega, by dsimp only; omega, hsize⟩)
  omega

/-- A stretch has no wall, behind which the run under way could begin. -/
theorem le_start (h : Scanned largest sizes start index) {stretch : Run}
    (hstretch : Stretch largest sizes stretch) (hle : start ≤ stretch.stop) :
    start ≤ stretch.start := by
  by_contra hnot
  obtain ⟨place, hplace⟩ : ∃ place, start = place + 1 := ⟨start - 1, by omega⟩
  obtain ⟨size, hsize⟩ := hstretch.exists_size place (by omega)
  have hwall := h.opens place size hplace hsize
  have hsmall := hstretch.size_le (by omega) (by omega) hsize
  omega

/-- A stretch that the scan has seen as a whole does not exceed the largest size. -/
theorem light_of_stop_le (h : Scanned largest sizes start index) {stretch : Run}
    (hstretch : Stretch largest sizes stretch) (hle : stretch.stop ≤ index) :
    Light largest sizes stretch := by
  have hfilled := hstretch.filled
  rcases Nat.lt_or_eq_of_le (h.start_le hstretch (by omega)) with hbefore | heq
  · exact h.older stretch hstretch hbefore
  · intro stop hstop hexceeds
    rw [heq] at hexceeds
    exact h.light (hexceeds.mono (Nat.le_trans hstop hle))

/-- A wall ends the run under way. -/
theorem wall (h : Scanned largest sizes start index) (hsize : sizes[index]? = some size)
    (hwall : largest < size) : Scanned largest sizes (index + 1) (index + 1) where
  begun := Nat.le_refl _
  within := (List.getElem?_eq_some_iff.1 hsize).1
  small := by simp [pick]
  opens place size' hplace hsize' := by
    obtain rfl : index = place := by omega
    obtain rfl : size = size' := Option.some.inj (hsize.symm.trans hsize')
    exact hwall
  light := fun hexceeds => Nat.lt_irrefl _ hexceeds.filled
  older stretch hstretch hlt := by
    -- the wall is no member of the stretch
    have hends : stretch.stop ≤ index := by
      by_contra hnot
      have hle := hstretch.size_le (Nat.le_of_lt_succ hlt) (by omega) hsize
      omega
    exact h.light_of_stop_le hstretch hends

theorem small_concat (h : Scanned largest sizes start index) (hsize : sizes[index]? = some size)
    (hsmall : size ≤ largest) :
    ∀ other ∈ (⟨start, index + 1⟩ : Run).pick sizes, other ≤ largest := by
  rw [pick_concat h.begun hsize]
  simp only [List.mem_append, List.mem_singleton]
  rintro other (hmem | rfl)
  · exact h.small other hmem
  · exact hsmall

theorem member (h : Scanned largest sizes start index) (hsize : sizes[index]? = some size)
    (hsmall : size ≤ largest) (hlight : ¬ Exceeds largest sizes ⟨start, index + 1⟩) :
    Scanned largest sizes start (index + 1) where
  begun := Nat.le_succ_of_le h.begun
  within := (List.getElem?_eq_some_iff.1 hsize).1
  small := h.small_concat hsize hsmall
  opens := h.opens
  light := hlight
  older := h.older

/-- The first time that the run under way exceeds the largest size, it is the one to be merged. -/
theorem heavy (h : Scanned largest sizes start index) (hsize : sizes[index]? = some size)
    (hsmall : size ≤ largest) (hexceeds : Exceeds largest sizes ⟨start, index + 1⟩) :
    Selected largest tolerance sizes ⟨start, index + 1⟩ := by
  obtain ⟨stop, hle, hstretch⟩ := exists_stretch (Nat.lt_succ_of_le h.begun)
    (List.getElem?_eq_some_iff.1 hsize).1 (h.small_concat hsize hsmall) h.opens
  exact .heavy hstretch hle hexceeds
    (fun sooner hlt hsooner => h.light (hsooner.mono (Nat.le_of_lt_succ hlt))) h.older

/-- At the end of the list, all stretches have been seen. Without enough members under way, none of
them is to be merged. -/
theorem not_selected (h : Scanned largest sizes start sizes.length)
    (hfew : start = sizes.length ∨ sizes.length - start < tolerance) (run : Run) :
    ¬ Selected largest tolerance sizes run := by
  intro hselected
  cases hselected with
  | heavy hstretch hstop hexceeds _ _ =>
    exact h.light_of_stop_le hstretch hstretch.within _ hstop hexceeds
  | many hstretch hnewest hmembers _ =>
    have hbegun := h.le_start hstretch (hnewest ▸ h.begun)
    have hfilled := hstretch.filled
    omega

/-- At the end of the list, the run under way is the newest stretch. -/
theorem many (h : Scanned largest sizes start sizes.length) (hfilled : start < sizes.length)
    (hmembers : tolerance ≤ sizes.length - start) :
    Selected largest tolerance sizes ⟨start, sizes.length⟩ :=
  .many ⟨hfilled, Nat.le_refl _, h.small, h.opens, by simp⟩ rfl hmembers
    fun _ hother => h.light_of_stop_le hother hother.within

end Scanned

/-- The scan goes on from what it has found, by induction on the sizes that are left. -/
theorem selectFrom_spec {start index total : Nat} {rest : List Nat}
    (h : Scanned largest sizes start index) (hrest : sizes.drop index = rest)
    (htotal : total = min ((⟨start, index⟩ : Run).pick sizes).sum (Numeral.word - 1))
    (hfew : rest = [] → start = index ∨ index - start < tolerance) :
    (∀ run, selectFrom largest tolerance index start total rest = some run →
      Selected largest tolerance sizes run) ∧
    (selectFrom largest tolerance index start total rest = none →
      ∀ run, ¬ Selected largest tolerance sizes run) := by
  induction rest generalizing start index total with
  | nil =>
    obtain rfl : index = sizes.length :=
      Nat.le_antisymm h.within (List.drop_eq_nil_iff.1 hrest)
    exact ⟨fun run hrun => by simp [selectFrom] at hrun, fun _ => h.not_selected (hfew rfl)⟩
  | cons size rest ih =>
    have hsize : sizes[index]? = some size := by
      rw [← List.head?_drop, hrest, List.head?_cons]
    have hrest' : sizes.drop (index + 1) = rest := by
      rw [← List.tail_drop, hrest, List.tail_cons]
    by_cases hwall : largest < size
    · rw [selectFrom, if_pos hwall]
      exact ih (h.wall hsize hwall) hrest' (by simp [pick]) fun _ => .inl rfl
    · rw [selectFrom, if_neg hwall]
      have hsmall := Nat.not_lt.1 hwall
      have htotal' : min (total + size) (Numeral.word - 1) =
          min ((⟨start, index + 1⟩ : Run).pick sizes).sum (Numeral.word - 1) := by
        rw [pick_concat h.begun hsize, List.sum_append, List.sum_singleton]
        omega
      simp only [htotal']
      have hbegun := h.begun
      split
      · rename_i hchosen
        refine ⟨?_, by simp⟩
        rintro run hrun
        obtain rfl := Option.some.inj hrun
        by_cases hexceeds : Exceeds largest sizes ⟨start, index + 1⟩
        · exact h.heavy hsize hsmall hexceeds
        · obtain ⟨rfl, hmembers⟩ := hchosen.resolve_left hexceeds
          have hlast := List.drop_eq_nil_iff.1 hrest'
          have hscanned := h.member hsize hsmall hexceeds
          have hend : index + 1 = sizes.length := Nat.le_antisymm hscanned.within hlast
          rw [hend] at hscanned hmembers ⊢
          exact hscanned.many (by omega) hmembers
      · rename_i hnot
        obtain ⟨hlight, hshort⟩ := not_or.1 hnot
        exact ih (h.member hsize hsmall hlight) hrest' rfl
          fun hnil => .inr (Nat.not_le.1 fun hle => hshort ⟨hnil, hle⟩)

theorem selected_of_select {run : Run} (h : select largest tolerance sizes = some run) :
    Selected largest tolerance sizes run :=
  (selectFrom_spec (.zero largest sizes) rfl (by simp [pick]) fun _ => .inl rfl).1 run h

theorem not_selected_of_select (h : select largest tolerance sizes = none) (run : Run) :
    ¬ Selected largest tolerance sizes run :=
  (selectFrom_spec (.zero largest sizes) rfl (by simp [pick]) fun _ => .inl rfl).2 h run

theorem select_eq_some_iff {run : Run} :
    select largest tolerance sizes = some run ↔ Selected largest tolerance sizes run := by
  refine ⟨selected_of_select, fun h => ?_⟩
  cases hselect : select largest tolerance sizes with
  | none => exact absurd h (not_selected_of_select hselect run)
  | some run' => rw [(selected_of_select hselect).unique h]

/-- The run that is to be merged begins where its stretch begins. -/
theorem Selected.opens {run : Run} (h : Selected largest tolerance sizes run) {place size : Nat}
    (hplace : run.start = place + 1) (hsize : sizes[place]? = some size) : largest < size := by
  cases h with
  | heavy hstretch _ _ _ _ => exact hstretch.opens place size hplace hsize
  | many hstretch _ _ _ => exact hstretch.opens place size hplace hsize

/-- What is selected is exactly the run that the stretches tell, and nothing if they tell none. Its
members are none above the largest size, at least two where two are tolerated, and nothing that
could be merged stands right before it. -/
theorem select_told_by_stretches (largest tolerance : Nat) (sizes : List Nat) :
    (∀ run, select largest tolerance sizes = some run ↔ Selected largest tolerance sizes run) ∧
    (select largest tolerance sizes = none ↔ ∀ run, ¬ Selected largest tolerance sizes run) ∧
    ∀ run, select largest tolerance sizes = some run →
      run.pick sizes ≠ [] ∧ (∀ size ∈ run.pick sizes, size ≤ largest) ∧
      (∀ place size, run.start = place + 1 → sizes[place]? = some size → largest < size) ∧
      (2 ≤ tolerance → 2 ≤ (run.pick sizes).length) := by
  refine ⟨fun run => select_eq_some_iff, ⟨not_selected_of_select, fun hnone => ?_⟩, ?_⟩
  · exact Option.eq_none_iff_forall_ne_some.2 fun run hselect =>
      hnone run (selected_of_select hselect)
  · intro run hselect
    obtain ⟨hfilled, hwithin⟩ := select_bounds hselect
    have hlength := length_pick hwithin
    refine ⟨fun hnil => ?_, size_le_of_select hselect, fun place size => ?_, fun htolerance => ?_⟩
    · rw [hnil, List.length_nil] at hlength
      omega
    · exact (selected_of_select hselect).opens
    · rw [hlength]
      exact two_le_of_select htolerance hselect

/-- Behind a wall of 12, the sizes 5 and 6 exceed 10 together; 4 before the wall stays alone. -/
theorem select_told_behind_wall :
    Selected 10 2 [4, 12, 5, 6, 3] ⟨2, 4⟩ ∧
    2 ≤ ((⟨2, 4⟩ : Run).pick [4, 12, 5, 6, 3]).length := by
  have hselect : select 10 2 [4, 12, 5, 6, 3] = some ⟨2, 4⟩ := by decide
  obtain ⟨hsome, -, htold⟩ := select_told_by_stretches 10 2 [4, 12, 5, 6, 3]
  exact ⟨(hsome ⟨2, 4⟩).1 hselect, (htold ⟨2, 4⟩ hselect).2.2.2 (Nat.le_refl 2)⟩

end Run

end Strata
