import Mathlib.Data.List.Perm.Subperm
import Strata.Proofs.Component.Roster

/-!
# Places in the list of components

The order lists numbers, and a number may stand in it more than once: the component that is added
last under it is then found at all of its places. A merge takes all places of the numbers of its
members for one place of its result. So it takes as many places as it has members just as long as
each number stands once.
-/

namespace Strata

namespace Roster

variable {r roster : Roster} {ids : List Nat} {result : Component}

/-- How many places of the order some numbers take. -/
def places (r : Roster) (ids : List Nat) : Nat := r.order.countP (· ∈ ids)

/-- The numbers in the order are those of components. -/
def Whole (r : Roster) : Prop := ∀ id, id ∈ r.order ↔ (r.get? id).isSome

theorem whole_nil : Whole {} := by
  intro id
  simp [get?]

theorem whole_prepend (h : r.Whole) (c : Component) : (r.prepend c).Whole := by
  intro id
  rw [order_prepend, get?_prepend, List.mem_cons, h id]
  by_cases heq : id = c.id <;> simp [heq]

theorem whole_append (h : r.Whole) (c : Component) : (r.append c).Whole := by
  intro id
  rw [order_append, get?_append, List.mem_append, List.mem_singleton, h id]
  by_cases heq : id = c.id <;> simp [heq]

theorem whole_foldl (h : r.Whole) (components : List Component) :
    (components.foldl append r).Whole := by
  induction components generalizing r with
  | nil => exact h
  | cons c rest ih => exact ih (whole_append h c)

theorem order_foldl (r : Roster) (components : List Component) :
    (components.foldl append r).order = r.order ++ components.map Component.id := by
  induction components generalizing r with
  | nil => exact (List.append_nil _).symm
  | cons c rest ih => rw [List.foldl_cons, ih, order_append, List.append_assoc]; rfl

/-- Every component listed is found, so none of the places is empty. -/
theorem length_newestFirst (h : r.Whole) : r.newestFirst.length = r.length := by
  rw [newestFirst, length, List.filterMap_length_eq_length]
  exact fun id hid => (h id).1 hid

/-- The result of a merge stands among the numbers that are left. -/
theorem order_replace (h : r.replace ids result = .ok roster) :
    roster.order.Perm (result.id :: r.order.filter (· ∉ ids)) := by
  rw [(replace_eq_ok_iff.1 h).2.1, filter_order]
  exact List.perm_middle

theorem whole_replace (hwhole : r.Whole) (h : r.replace ids result = .ok roster) :
    roster.Whole := by
  intro id
  rw [(order_replace h).mem_iff, get?_replace h, List.mem_cons, List.mem_filter, hwhole id]
  by_cases heq : id = result.id
  · simp [heq]
  · by_cases hmem : id ∈ ids <;> simp [heq, hmem]

/-- The result of a merge takes one place for all of those of its members. -/
theorem length_replace (h : r.replace ids result = .ok roster) :
    roster.length + r.places ids = r.length + 1 := by
  have hlength := (order_replace h).length_eq
  have hsplit := r.order.length_eq_countP_add_countP (· ∈ ids)
  rw [List.length_cons, ← List.countP_eq_length_filter] at hlength
  simp only [length, places, decide_eq_true_eq] at hlength hsplit ⊢
  omega

/-- Each of some numbers takes a place at least. -/
theorem length_le_places (hwhole : r.Whole) (hids : ids.Nodup)
    (hfound : ∀ id ∈ ids, (r.get? id).isSome) : ids.length ≤ r.places ids := by
  rw [places, List.countP_eq_length_filter]
  refine (List.subperm_of_subset hids fun id hid => ?_).length_le
  rw [List.mem_filter]
  exact ⟨(hwhole id).2 (hfound id hid), decide_eq_true hid⟩

/-- While each number stands once in the order, none takes more than a place. -/
theorem places_le_length (horder : r.order.Nodup) : r.places ids ≤ ids.length := by
  rw [places, List.countP_eq_length_filter]
  refine (List.subperm_of_subset (horder.filter _) fun id hid => ?_).length_le
  exact of_decide_eq_true (List.mem_filter.1 hid).2

/-- A number that stands twice is counted at both places: for two members three are taken. -/
example : (Roster.mk [0, 1, 0] []).places [1, 0] = 3 := by decide

theorem nodup_prepend (horder : r.order.Nodup) {c : Component} (hnew : c.id ∉ r.order) :
    (r.prepend c).order.Nodup := List.nodup_cons.2 ⟨hnew, horder⟩

theorem nodup_replace (horder : r.order.Nodup) (hnew : result.id ∉ r.order)
    (h : r.replace ids result = .ok roster) : roster.order.Nodup := by
  rw [(order_replace h).nodup_iff, List.nodup_cons]
  exact ⟨fun hmem => hnew (List.mem_filter.1 hmem).1, horder.filter _⟩

end Roster

end Strata
