import Strata.Component
import Strata.Lifecycle
import Strata.Lookup

/-!
# The list of components

The components of an index, newest first. The order lists their numbers, a table holds them by
number. A flush adds the newest component; reading a directory adds ever older ones; a merge
replaces its members by its result, which stands where the newest of them stood. A component added
under a number in use stands in for the one that had it, at both places of the order.
-/

namespace Strata

/-- The components of an index. -/
structure Roster where
  /-- The numbers of the components, newest first. -/
  order : List Nat := []
  /-- The components, by number. -/
  table : List (Nat × Component) := []

namespace Roster

/-- The component with a number. -/
def get? (r : Roster) (id : Nat) : Option Component := r.table.lookup id

/-- A table with a component put in under its number. -/
def put (table : List (Nat × Component)) (c : Component) : List (Nat × Component) :=
  (c.id, c) :: table.filter (·.1 ≠ c.id)

/-- Add the newest component. -/
def prepend (r : Roster) (c : Component) : Roster := ⟨c.id :: r.order, put r.table c⟩

/-- Add the oldest component. -/
def append (r : Roster) (c : Component) : Roster := ⟨r.order ++ [c.id], put r.table c⟩

@[simp] theorem order_prepend (r : Roster) (c : Component) :
    (r.prepend c).order = c.id :: r.order := rfl

@[simp] theorem order_append (r : Roster) (c : Component) :
    (r.append c).order = r.order ++ [c.id] := rfl

theorem lookup_put (table : List (Nat × Component)) (c : Component) (id : Nat) :
    (put table c).lookup id = if id = c.id then some c else table.lookup id := by
  rw [put, Lookup.lookup_cons, Lookup.lookup_filter_ne]
  by_cases h : id = c.id <;> simp [h]

@[simp] theorem get?_prepend (r : Roster) (c : Component) (id : Nat) :
    (r.prepend c).get? id = if id = c.id then some c else r.get? id :=
  lookup_put r.table c id

@[simp] theorem get?_append (r : Roster) (c : Component) (id : Nat) :
    (r.append c).get? id = if id = c.id then some c else r.get? id :=
  lookup_put r.table c id

/-- The first of some numbers that belongs to no component. -/
def missing? (r : Roster) (ids : List Nat) : Option Nat :=
  ids.find? fun id => (r.get? id).isNone

/-- Where the newest of some components stands, the oldest end if there is none. -/
def position (r : Roster) (ids : List Nat) : Nat :=
  (r.order.findIdx? (· ∈ ids)).getD r.order.length

/-- Replace the members of a merge by its result. -/
def replace (r : Roster) (members : List Nat) (result : Component) : Except Error Roster :=
  match r.missing? members with
  | some id => .error (.damage (.unknownMember id))
  | none =>
    .ok ⟨(r.order.filter (· ∉ members)).insertIdx (r.position members) result.id,
      put (r.table.filter (·.1 ∉ members)) result⟩

/-- All components, newest first. -/
def newestFirst (r : Roster) : List Component := r.order.filterMap r.get?

/-- All components, newest first, each looked up by the number at its place. A number that belongs
to no component breaks a precondition. -/
def snapshot (r : Roster) : Outcome (List Component) :=
  r.order.mapM fun id => Outcome.ofOption (r.get? id)

/-- All components, oldest first. -/
def oldestFirst (r : Roster) : List Component := r.newestFirst.reverse

/-- The number of components. -/
def length (r : Roster) : Nat := r.order.length

/-- Whether there is no component. -/
def isEmpty (r : Roster) : Bool := r.order.isEmpty

end Roster

end Strata
