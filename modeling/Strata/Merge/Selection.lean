import Strata.Numeral

/-!
# Selecting a run to merge

From the sizes of components, oldest first, the run to be merged next. Components above the
largest size that is merged are walls: a run lies between two of them. A run grows from its oldest
end. It is chosen once its total exceeds that size, or when it reaches the newest component and
has as many members as are tolerated.
-/

namespace Strata

/-- A run of components: the place of the first, and the place behind the last. -/
structure Run where
  start : Nat
  stop : Nat
deriving DecidableEq, Repr

namespace Run

/-- The members of a list that lie in a run. -/
def pick {α : Type} (run : Run) (xs : List α) : List α :=
  (xs.take run.stop).drop run.start

/-- Go on selecting at place `index`, with a run from `start` on whose total is `total`. Totals
stop at the largest number of 64 bits. -/
def selectFrom (largest tolerance : Nat) : (index start total : Nat) → List Nat → Option Run
  | _, _, _, [] => none
  | index, start, total, size :: rest =>
    if largest < size then selectFrom largest tolerance (index + 1) (index + 1) 0 rest
    else
      let total := min (total + size) (Numeral.word - 1)
      if largest < total ∨ (rest = [] ∧ tolerance ≤ index + 1 - start) then
        some ⟨start, index + 1⟩
      else selectFrom largest tolerance (index + 1) start total rest

/-- The run to be merged next, of components given by size, oldest first. -/
def select (largest tolerance : Nat) (sizes : List Nat) : Option Run :=
  selectFrom largest tolerance 0 0 0 sizes

@[simp] theorem select_nil (largest tolerance : Nat) : select largest tolerance [] = none := rfl

theorem selectFrom_bounds {largest tolerance index start total : Nat} {sizes : List Nat} {run : Run}
    (hstart : start ≤ index)
    (h : selectFrom largest tolerance index start total sizes = some run) :
    start ≤ run.start ∧ run.start < run.stop ∧ run.stop ≤ index + sizes.length := by
  induction sizes generalizing index start total with
  | nil => simp [selectFrom] at h
  | cons size rest ih =>
    simp only [selectFrom] at h
    split at h
    · have := ih (Nat.le_refl _) h
      simp only [List.length_cons]
      omega
    · split at h
      · obtain rfl := Option.some.inj h
        simp only [List.length_cons]
        omega
      · have := ih (Nat.le_succ_of_le hstart) h
        simp only [List.length_cons]
        omega

/-- A run that is chosen has members, and all of them are components given. -/
theorem select_bounds {largest tolerance : Nat} {sizes : List Nat} {run : Run}
    (h : select largest tolerance sizes = some run) :
    run.start < run.stop ∧ run.stop ≤ sizes.length := by
  have := selectFrom_bounds (Nat.le_refl 0) h
  omega

end Run

end Strata
