import Mathlib.Data.List.Infix
import Strata.Merge.Selection
import Strata.Proofs.Store.Custody

/-!
# What is selected, and what is left alone

A run that is selected has at least two members if at least two small components are tolerated: one
component does not exceed the largest size that is merged. No member is larger than that size, since
a run begins anew behind each wall. Where nothing is selected, no stretch without a wall totals more
than that size, and fewer small components than are tolerated come after the last wall.
-/

namespace Strata

namespace Run

variable {largest tolerance : Nat}

theorem pick_infix {α : Type} (run : Run) (xs : List α) : run.pick xs <:+: xs :=
  (List.drop_suffix _ _).isInfix.trans (List.take_prefix _ _).isInfix

theorem length_pick {α : Type} {run : Run} {xs : List α} (h : run.stop ≤ xs.length) :
    (run.pick xs).length = run.stop - run.start := by
  rw [pick, List.length_drop, List.length_take, Nat.min_eq_left h]

/-- A run without members has a total of zero, so a run of one member does not exceed the largest
size. -/
theorem selectFrom_two_le {index start total : Nat} {sizes : List Nat} {run : Run}
    (htolerance : 2 ≤ tolerance) (hstart : start ≤ index) (htotal : start = index → total = 0)
    (h : selectFrom largest tolerance index start total sizes = some run) :
    2 ≤ run.stop - run.start := by
  induction sizes generalizing index start total with
  | nil => simp [selectFrom] at h
  | cons size rest ih =>
    simp only [selectFrom] at h
    split at h
    · exact ih (Nat.le_refl _) (fun _ => rfl) h
    · split at h
      · rename_i hsmall hchosen
        obtain rfl := Option.some.inj h
        dsimp only
        omega
      · exact ih (Nat.le_succ_of_le hstart) (fun heq => by omega) h

/-- A run that is selected has at least two members. -/
theorem two_le_of_select {sizes : List Nat} {run : Run} (htolerance : 2 ≤ tolerance)
    (h : select largest tolerance sizes = some run) : 2 ≤ run.stop - run.start :=
  selectFrom_two_le htolerance (Nat.le_refl 0) (fun _ => rfl) h

theorem pick_map {α β : Type} (run : Run) (f : α → β) (xs : List α) :
    run.pick (xs.map f) = (run.pick xs).map f := by
  simp only [pick, List.map_take, List.map_drop]

/-- A run that begins behind one part of a list and ends behind the next is that next part. -/
theorem pick_append {α : Type} (before front rest : List α) :
    (⟨before.length, before.length + front.length⟩ : Run).pick (before ++ front ++ rest) =
      front := by
  rw [pick, ← List.length_append, List.take_left, List.drop_left]

/-- The run under way is `front`. It has no wall, since it begins anew behind each. -/
theorem size_le_of_selectFrom {total : Nat} {sizes : List Nat} {run : Run} (before front : List Nat)
    (hfront : ∀ size ∈ front, size ≤ largest)
    (h : selectFrom largest tolerance (before.length + front.length) before.length total sizes =
      some run) :
    ∀ size ∈ run.pick (before ++ front ++ sizes), size ≤ largest := by
  induction sizes generalizing before front total with
  | nil => simp [selectFrom] at h
  | cons size rest ih =>
    rw [List.append_cons]
    simp only [selectFrom] at h
    split at h
    · have hgoal := ih (before ++ front ++ [size]) [] (by simp)
        (by simpa only [List.length_append, List.length_singleton, List.length_nil] using h)
      rwa [List.append_nil] at hgoal
    · rename_i hsmall
      have hfront' : ∀ other ∈ front ++ [size], other ≤ largest := by
        simp only [List.mem_append, List.mem_singleton]
        rintro other (hmem | rfl)
        · exact hfront other hmem
        · exact Nat.not_lt.1 hsmall
      rw [List.append_assoc before]
      split at h
      · obtain rfl := Option.some.inj h
        have hpick := pick_append before (front ++ [size]) rest
        rw [List.length_append, List.length_singleton, ← Nat.add_assoc] at hpick
        rw [hpick]
        exact hfront'
      · rw [Nat.add_assoc, ← List.length_singleton (a := size), ← List.length_append] at h
        exact ih before (front ++ [size]) hfront' h

/-- No member of a run that is selected is above the largest size. -/
theorem size_le_of_select {sizes : List Nat} {run : Run}
    (h : select largest tolerance sizes = some run) :
    ∀ size ∈ run.pick sizes, size ≤ largest :=
  size_le_of_selectFrom [] [] (by simp) h

theorem sum_le_of_infix {stretch sizes : List Nat} (h : stretch <:+: sizes) :
    stretch.sum ≤ sizes.sum := by
  obtain ⟨front, back, rfl⟩ := h
  simp only [List.sum_append]
  omega

/-- Sizes among which no run is to be merged: no stretch without a wall totals more than the largest
size, and fewer than are tolerated come after the last wall. Totals stop at the largest number of 64
bits. -/
structure Spares (largest tolerance : Nat) (sizes : List Nat) : Prop where
  totals : ∀ stretch, stretch <:+: sizes → (∀ size ∈ stretch, size ≤ largest) →
    min stretch.sum (Numeral.word - 1) ≤ largest
  newest : (sizes.reverse.takeWhile (· ≤ largest)).length < tolerance

/-- What comes before a wall does not count. -/
theorem spares_of_wall {front rest : List Nat} {size : Nat} (hwall : largest < size)
    (hfront : min front.sum (Numeral.word - 1) ≤ largest) (h : Spares largest tolerance rest) :
    Spares largest tolerance (front ++ size :: rest) where
  totals stretch hstretch hsmall := by
    have hout : size ∉ stretch := fun hmem => Nat.not_le.2 hwall (hsmall size hmem)
    rcases infix_cut hstretch hout with hbefore | hbehind
    · have hle := sum_le_of_infix hbefore
      omega
    · exact h.totals stretch hbehind hsmall
  newest := by
    have hstop : (front ++ size :: rest).reverse.takeWhile (· ≤ largest) =
        rest.reverse.takeWhile (· ≤ largest) := by
      rw [List.reverse_append, List.reverse_cons, List.append_assoc, List.takeWhile_append]
      split
      · have hnot : ¬ size ≤ largest := Nat.not_le.2 hwall
        have hall : rest.reverse.takeWhile (· ≤ largest) = rest.reverse :=
          (List.takeWhile_prefix _).eq_of_length ‹_›
        simp [hnot, hall]
      · rfl
    rw [hstop]
    exact h.newest

/-- The run under way is `front`. It grows until it is chosen, a wall ends it, or nothing is left.
-/
theorem spares_of_selectFrom {index start total : Nat} (front : List Nat) {sizes : List Nat}
    (htolerance : 0 < tolerance) (hfront : ∀ size ∈ front, size ≤ largest)
    (hindex : index = start + front.length) (htotal : total = min front.sum (Numeral.word - 1))
    (hle : total ≤ largest) (hfew : sizes = [] → front.length < tolerance)
    (h : selectFrom largest tolerance index start total sizes = none) :
    Spares largest tolerance (front ++ sizes) := by
  induction sizes generalizing index start total front with
  | nil =>
    rw [List.append_nil]
    refine ⟨fun stretch hstretch _ => ?_, ?_⟩
    · have hsum := sum_le_of_infix hstretch
      omega
    · have hshort := (List.takeWhile_prefix (l := front.reverse) (· ≤ largest)).length_le
      rw [List.length_reverse] at hshort
      exact Nat.lt_of_le_of_lt hshort (hfew rfl)
  | cons size rest ih =>
    simp only [selectFrom] at h
    split at h
    · rename_i hwall
      refine spares_of_wall hwall (htotal ▸ hle) ?_
      exact ih [] (by simp) rfl rfl (Nat.zero_le _) (fun _ => htolerance) h
    · rename_i hsmall
      split at h
      · contradiction
      · rename_i hgrows
        obtain ⟨hbelow, hshort⟩ := not_or.1 hgrows
        have hfront' : ∀ other ∈ front ++ [size], other ≤ largest := by
          simp only [List.mem_append, List.mem_singleton]
          rintro other (hmem | rfl)
          · exact hfront other hmem
          · exact Nat.not_lt.1 hsmall
        have hgoal := ih (front ++ [size]) hfront' (by simp; omega)
          (by simp only [List.sum_append, List.sum_singleton]; omega) (Nat.not_lt.1 hbelow)
          (fun hnil => by
            have := not_and.1 hshort hnil
            simp only [List.length_append, List.length_singleton]
            omega) h
        rwa [List.append_assoc, List.singleton_append] at hgoal

/-- Where no run is selected, none is to be merged. -/
theorem spares_of_select {sizes : List Nat} (htolerance : 0 < tolerance)
    (h : select largest tolerance sizes = none) : Spares largest tolerance sizes :=
  spares_of_selectFrom [] htolerance (by simp) rfl rfl (Nat.zero_le _)
    (fun _ => htolerance) h

end Run

end Strata
