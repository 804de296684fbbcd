/-!
# Look-ups in lists of pairs

Tables in this library are lists of pairs, searched from the front by `List.lookup`. A key is
removed by filtering its pairs out; the lemmas say what a look-up then finds.
-/

namespace Strata.Lookup

variable {α β : Type} [BEq α] [LawfulBEq α] [DecidableEq α]

theorem lookup_cons (k key : α) (b : β) (table : List (α × β)) :
    ((k, b) :: table).lookup key = if key = k then some b else table.lookup key := by
  by_cases h : key = k
  · simp [h]
  · have hb : (key == k) = false := by simpa using h
    simp [List.lookup_cons, hb, h]

/-- A key that is kept is found as before, any other is not found. -/
theorem lookup_filter (p : α → Bool) (key : α) (table : List (α × β)) :
    (table.filter fun e => p e.1).lookup key = if p key then table.lookup key else none := by
  induction table with
  | nil => simp
  | cons e rest ih =>
    obtain ⟨first, b⟩ := e
    rw [List.filter_cons, lookup_cons]
    by_cases h : key = first
    · subst h
      split
      · rw [lookup_cons, if_pos rfl, if_pos rfl]
      · rename_i hp
        rw [ih, if_neg hp]
    · rw [if_neg h, ← ih]
      split
      · rw [lookup_cons, if_neg h]
      · rfl

/-- A key that is removed is not found, any other is found as before. -/
theorem lookup_filter_ne (k key : α) (table : List (α × β)) :
    (table.filter (·.1 ≠ k)).lookup key = if key = k then none else table.lookup key := by
  rw [lookup_filter fun other => decide (other ≠ k)]
  by_cases h : key = k <;> simp [h]

end Strata.Lookup
