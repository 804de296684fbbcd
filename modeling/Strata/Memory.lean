import Strata.Keyed
import Strata.Tuple

/-!
# The memory component

Tuples wait in memory, by key, until they are flushed; the last one inserted under a key counts.
The bytes they take are kept count of, with a fixed share for each entry, and compared with a
budget.
-/

namespace Strata

/-- The tuples in memory. -/
structure Memory where
  tuples : Keyed Tuple := []
  /-- The bytes the tuples are taken to need. -/
  bytes : Nat := 0
  budget : Nat
deriving Repr

namespace Memory

/-- The share of an entry besides its key and its fields. -/
def overhead : Nat := 32

/-- The bytes of an entry. -/
def entrySize (key : Bytes) (tuple : Tuple) : Nat :=
  key.length + Tuple.payload tuple + overhead

/-- The bytes of the entry under a key, none if there is none. -/
def sizeAt (m : Memory) (key : Bytes) : Nat :=
  ((Keyed.find? m.tuples key).map (entrySize key)).getD 0

/-- Insert a tuple under a key. -/
def insert (m : Memory) (key : Bytes) (tuple : Tuple) : Memory :=
  { m with
    tuples := Keyed.insert m.tuples key tuple
    bytes := m.bytes - m.sizeAt key + entrySize key tuple }

/-- The tuple under a key. -/
def get? (m : Memory) (key : Bytes) : Option Tuple := Keyed.find? m.tuples key

/-- The number of tuples. -/
def length (m : Memory) : Nat := m.tuples.length

/-- Whether there is no tuple. -/
def isEmpty (m : Memory) : Bool := m.tuples.isEmpty

/-- Whether the budget is used up. -/
def isFull (m : Memory) : Bool := m.budget ≤ m.bytes

/-- The memory without its tuples. -/
def clear (m : Memory) : Memory := { m with tuples := [], bytes := 0 }

/-- The tuples moved out, and the memory without them. -/
def take (m : Memory) : Keyed Tuple × Memory := (m.tuples, m.clear)

@[simp] theorem get?_insert (m : Memory) (key other : Bytes) (tuple : Tuple) :
    (m.insert key tuple).get? other = if key = other then some tuple else m.get? other :=
  Keyed.find?_insert m.tuples key other tuple

end Memory

end Strata
