import Strata.Bytes

/-!
# Lists by key

A list of keys and what belongs to them, the keys ascending as byte strings. Putting a key in
replaces what belonged to it.
-/

namespace Strata

/-- A list with a key to each member. -/
abbrev Keyed (α : Type) := List (Bytes × α)

namespace Keyed

variable {α : Type}

/-- The keys ascend, so that each occurs once. -/
def Ascending (m : Keyed α) : Prop := m.Pairwise fun a b => compare a.1 b.1 = .lt

/-- What belongs to a key. -/
def find? : Keyed α → (key : Bytes) → Option α
  | [], _ => none
  | (k, a) :: rest, key => if k = key then some a else find? rest key

/-- Put in a key and what belongs to it. -/
def insert : Keyed α → (key : Bytes) → (a : α) → Keyed α
  | [], key, a => [(key, a)]
  | (k, b) :: rest, key, a =>
    match compare key k with
    | .lt => (key, a) :: (k, b) :: rest
    | .eq => (key, a) :: rest
    | .gt => (k, b) :: insert rest key a

/-- Put in many keys, in order. -/
def insertAll (m : Keyed α) (entries : List (Bytes × α)) : Keyed α :=
  entries.foldl (fun m e => insert m e.1 e.2) m

/-- What belongs to the keys, by ascending key. -/
def values (m : Keyed α) : List α := m.map Prod.snd

@[simp] theorem insertAll_nil (m : Keyed α) : insertAll m [] = m := rfl

@[simp] theorem insertAll_cons (m : Keyed α) (e : Bytes × α) (rest : List (Bytes × α)) :
    insertAll m (e :: rest) = insertAll (insert m e.1 e.2) rest := rfl

theorem find?_insert (m : Keyed α) (key other : Bytes) (a : α) :
    find? (insert m key a) other = if key = other then some a else find? m other := by
  induction m with
  | nil => simp [insert, find?]
  | cons e rest ih =>
    obtain ⟨k, b⟩ := e
    simp only [insert]
    split <;> rename_i h
    · simp [find?]
    · have hk : key = k := Std.LawfulEqOrd.eq_of_compare h
      subst hk
      by_cases ho : key = other <;> simp [find?, ho]
    · have hk : k ≠ key := by
        rintro rfl
        simp at h
      by_cases ho : key = other
      · subst ho
        simp [find?, hk, ih]
      · by_cases hko : k = other <;> simp [find?, ho, hko, ih]

end Keyed

end Strata
