/-!
# Ranges of flushes

Every flush has a number. A component covers a range of them: the single flush that wrote it, or
all flushes whose components a merge has put into it.
-/

namespace Strata

/-- The flushes from `min` to `max`. -/
structure Range where
  min : Nat
  max : Nat
deriving DecidableEq, Repr

namespace Range

/-- One flush. -/
def single (stamp : Nat) : Range := ⟨stamp, stamp⟩

/-- The smallest range that covers two. -/
def union (a b : Range) : Range := ⟨Min.min a.min b.min, Max.max a.max b.max⟩

/-- The smallest range that covers all of a list, if there is any. -/
def span : List Range → Option Range
  | [] => none
  | r :: rest => some (rest.foldl union r)

/-- Whether a range covers another. -/
def contains (a b : Range) : Bool := a.min ≤ b.min && b.max ≤ a.max

/-- The text of a range, the newest flush first. -/
def text (r : Range) : String := s!"c{r.max}-{r.min}"

@[simp] theorem contains_self (r : Range) : r.contains r = true := by
  simp [contains]

theorem contains_iff {a b : Range} : a.contains b = true ↔ a.min ≤ b.min ∧ b.max ≤ a.max := by
  simp [contains]

theorem contains_union_left (a b : Range) : (a.union b).contains a = true :=
  contains_iff.2 ⟨Nat.min_le_left .., Nat.le_max_left ..⟩

theorem contains_union_right (a b : Range) : (a.union b).contains b = true :=
  contains_iff.2 ⟨Nat.min_le_right .., Nat.le_max_right ..⟩

end Range

end Strata
