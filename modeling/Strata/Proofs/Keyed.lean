import Strata.Memory

/-!
# Lists by ascending key

Putting keys into a list keeps them ascending, and of many puts the last one under a key counts. A
list whose keys ascend is determined by what it has under each key. What its members weigh together
changes with a put by what comes in and what is replaced.
-/

namespace Strata.Keyed

variable {α : Type}

theorem mem_insert {m : Keyed α} {key : Bytes} {a : α} {e : Bytes × α}
    (h : e ∈ insert m key a) : e = (key, a) ∨ e ∈ m := by
  induction m with
  | nil => exact .inl (by simpa [insert] using h)
  | cons first rest ih =>
    obtain ⟨k, b⟩ := first
    simp only [insert] at h
    split at h
    · exact (List.mem_cons.1 h)
    · exact (List.mem_cons.1 h).imp id fun h => List.mem_cons_of_mem _ h
    · rcases List.mem_cons.1 h with rfl | h
      · exact .inr (by simp)
      · exact (ih h).imp id fun h => List.mem_cons_of_mem _ h

theorem ascending_insert {m : Keyed α} (h : Ascending m) (key : Bytes) (a : α) :
    Ascending (insert m key a) := by
  induction m with
  | nil => simp [insert, Ascending]
  | cons first rest ih =>
    obtain ⟨k, b⟩ := first
    obtain ⟨hfirst, hrest⟩ := List.pairwise_cons.1 h
    simp only [insert]
    split <;> rename_i hcompare
    · refine List.pairwise_cons.2 ⟨fun e he => ?_, h⟩
      rcases List.mem_cons.1 he with rfl | he
      · exact hcompare
      · exact Std.TransCmp.lt_trans hcompare (hfirst e he)
    · have hkey : key = k := Std.LawfulEqOrd.eq_of_compare hcompare
      subst hkey
      exact List.pairwise_cons.2 ⟨hfirst, hrest⟩
    · refine List.pairwise_cons.2 ⟨fun e he => ?_, ih hrest⟩
      rcases mem_insert he with rfl | he
      · exact Std.OrientedCmp.gt_iff_lt.1 hcompare
      · exact hfirst e he

theorem ascending_insertAll {m : Keyed α} (h : Ascending m) (entries : List (Bytes × α)) :
    Ascending (insertAll m entries) := by
  induction entries generalizing m with
  | nil => exact h
  | cons e rest ih => exact ih (ascending_insert h e.1 e.2)

theorem find?_append (m n : Keyed α) (key : Bytes) :
    find? (m ++ n) key = (find? m key).or (find? n key) := by
  induction m with
  | nil => rfl
  | cons e rest ih =>
    obtain ⟨k, a⟩ := e
    by_cases h : k = key
    · simp [find?, h]
    · simpa [find?, h] using ih

theorem mem_of_find? {m : Keyed α} {key : Bytes} {a : α} (h : find? m key = some a) :
    (key, a) ∈ m := by
  induction m with
  | nil => simp [find?] at h
  | cons e rest ih =>
    obtain ⟨k, b⟩ := e
    simp only [find?] at h
    split at h
    · rename_i hk
      rw [← hk, Option.some.inj h]
      exact List.mem_cons_self
    · exact List.mem_cons_of_mem _ (ih h)

theorem find?_eq_none_iff {m : Keyed α} {key : Bytes} :
    find? m key = none ↔ ∀ e ∈ m, e.1 ≠ key := by
  induction m with
  | nil => simp [find?]
  | cons e rest ih =>
    obtain ⟨k, a⟩ := e
    by_cases h : k = key
    · simp [find?, h]
    · simp [find?, h, ih]

/-- Each key of an ascending list occurs once, so it is found with what it stands with. -/
theorem find?_eq_some_iff {m : Keyed α} (h : Ascending m) {key : Bytes} {a : α} :
    find? m key = some a ↔ (key, a) ∈ m := by
  refine ⟨mem_of_find?, fun hmem => ?_⟩
  induction m with
  | nil => simp at hmem
  | cons e rest ih =>
    obtain ⟨k, b⟩ := e
    obtain ⟨hfirst, hrest⟩ := List.pairwise_cons.1 h
    rcases List.mem_cons.1 hmem with heq | hmem
    · obtain ⟨rfl, rfl⟩ := Prod.mk.inj heq
      simp [find?]
    · have hne : k ≠ key := by
        rintro rfl
        have hlt := hfirst _ hmem
        simp at hlt
      rw [find?, if_neg hne]
      exact ih hrest hmem

/-- Of many puts under a key the last one counts. -/
theorem find?_insertAll (m : Keyed α) (entries : List (Bytes × α)) (key : Bytes) :
    find? (insertAll m entries) key = (find? entries.reverse key).or (find? m key) := by
  induction entries generalizing m with
  | nil => rfl
  | cons e rest ih =>
    obtain ⟨k, a⟩ := e
    rw [insertAll_cons, ih, find?_insert, List.reverse_cons, find?_append, Option.or_assoc]
    congr 1
    by_cases h : k = key <;> simp [find?, h]

theorem insertAll_eq_nil_iff {entries : List (Bytes × α)} :
    insertAll [] entries = [] ↔ entries = [] := by
  refine ⟨fun h => List.eq_nil_iff_forall_not_mem.2 fun e he => ?_, fun h => by rw [h]; rfl⟩
  have hnone := find?_insertAll [] entries e.1
  rw [h, find?, Option.or_none] at hnone
  exact find?_eq_none_iff.1 hnone.symm e (List.mem_reverse.2 he) rfl

/-- In an ascending list the order of search does not matter. -/
theorem find?_reverse {m : Keyed α} (h : Ascending m) (key : Bytes) :
    find? m.reverse key = find? m key := by
  cases hfind : find? m.reverse key with
  | none =>
    rw [find?_eq_none_iff] at hfind
    rw [eq_comm, find?_eq_none_iff]
    intro e he
    exact hfind e (List.mem_reverse.2 he)
  | some a =>
    rw [eq_comm, find?_eq_some_iff h]
    exact List.mem_reverse.1 (mem_of_find? hfind)

/-- An ascending list is determined by what it has under each key. -/
theorem eq_of_find?_eq {m n : Keyed α} (hm : Ascending m) (hn : Ascending n)
    (h : ∀ key, find? m key = find? n key) : m = n := by
  have hmem : ∀ e, e ∈ m ↔ e ∈ n := by
    rintro ⟨key, a⟩
    rw [← find?_eq_some_iff hm, ← find?_eq_some_iff hn, h]
  induction m generalizing n with
  | nil =>
    cases n with
    | nil => rfl
    | cons e rest => simpa using hmem e
  | cons e rest ih =>
    cases n with
    | nil => simpa using hmem e
    | cons f others =>
      obtain ⟨he, hrest⟩ := List.pairwise_cons.1 hm
      obtain ⟨hf, hothers⟩ := List.pairwise_cons.1 hn
      -- The first member of either list is below all others, so both have the same one.
      have hfirst : e = f := by
        rcases List.mem_cons.1 ((hmem e).1 (by simp)) with heq | hin
        · exact heq
        · rcases List.mem_cons.1 ((hmem f).2 (by simp)) with heq | hin'
          · exact heq.symm
          · have hlt := Std.TransCmp.lt_trans (hf e hin) (he f hin')
            simp at hlt
      subst hfirst
      have hsame : ∀ x, x ∈ rest ↔ x ∈ others := by
        intro x
        constructor
        · intro hx
          rcases List.mem_cons.1 ((hmem x).1 (by simp [hx])) with rfl | hin
          · have hlt := he x hx
            simp at hlt
          · exact hin
        · intro hx
          rcases List.mem_cons.1 ((hmem x).2 (by simp [hx])) with rfl | hin
          · have hlt := hf x hx
            simp at hlt
          · exact hin
      have hfind : ∀ key, find? rest key = find? others key := by
        intro key
        cases hrestFind : find? rest key with
        | none =>
          rw [find?_eq_none_iff] at hrestFind
          rw [eq_comm, find?_eq_none_iff]
          exact fun x hx => hrestFind x ((hsame x).2 hx)
        | some a =>
          rw [eq_comm, find?_eq_some_iff hothers, ← hsame]
          exact mem_of_find? hrestFind
      rw [ih hrest hothers hfind hsame]

/-- What the members of a list weigh together. -/
def weight (w : Bytes → α → Nat) (m : Keyed α) : Nat := (m.map fun e => w e.1 e.2).sum

/-- A key that stands before all others is not found. -/
theorem find?_eq_none_of_before {m : Keyed α} {key : Bytes}
    (h : ∀ e ∈ m, compare key e.1 = .lt) : find? m key = none := by
  rw [find?_eq_none_iff]
  rintro e he rfl
  simpa using h e he

/-- Putting in a key adds the weight of what is put in, and takes off that of what it replaces. -/
theorem weight_insert {m : Keyed α} (h : Ascending m) (w : Bytes → α → Nat) (key : Bytes) (a : α) :
    weight w (insert m key a) + ((find? m key).map (w key)).getD 0 = weight w m + w key a := by
  induction m with
  | nil => simp [insert, find?, weight]
  | cons first rest ih =>
    obtain ⟨k, b⟩ := first
    obtain ⟨hfirst, hrest⟩ := List.pairwise_cons.1 h
    cases hcompare : compare key k with
    | lt =>
      have hbefore : ∀ e ∈ (k, b) :: rest, compare key e.1 = .lt := by
        intro e he
        rcases List.mem_cons.1 he with rfl | he
        · exact hcompare
        · exact Std.TransCmp.lt_trans hcompare (hfirst e he)
      simp only [insert, hcompare, find?_eq_none_of_before hbefore, weight, List.map_cons,
        List.sum_cons, Option.map_none, Option.getD_none]
      omega
    | eq =>
      have hkey : key = k := Std.LawfulEqOrd.eq_of_compare hcompare
      subst hkey
      simp only [insert, hcompare, find?, weight, List.map_cons, List.sum_cons, if_pos,
        Option.map_some, Option.getD_some]
      omega
    | gt =>
      have hne : k ≠ key := by
        rintro rfl
        simp at hcompare
      have hinsert := ih hrest
      simp only [insert, hcompare, find?, if_neg hne, weight, List.map_cons, List.sum_cons]
        at hinsert ⊢
      omega

/-- What stands under a key weighs no more than all together. -/
theorem find?_weight_le (m : Keyed α) (w : Bytes → α → Nat) (key : Bytes) :
    ((find? m key).map (w key)).getD 0 ≤ weight w m := by
  induction m with
  | nil => simp [find?]
  | cons first rest ih =>
    obtain ⟨k, b⟩ := first
    by_cases h : k = key
    · simp [find?, weight, h]
    · simp only [find?, if_neg h, weight, List.map_cons, List.sum_cons] at ih ⊢
      omega

end Strata.Keyed

namespace Strata.Tuple

/-- Tuples with their key bytes. -/
def keyed (keyFields : Nat) (tuples : List Tuple) : Keyed Tuple :=
  tuples.map fun t => (t.keyBytes keyFields, t)

/-- The keys of tuples ascend. -/
abbrev Ascending (keyFields : Nat) (tuples : List Tuple) : Prop :=
  tuples.Pairwise fun t u => compare (t.keyBytes keyFields) (u.keyBytes keyFields) = .lt

/-- The keys of tuples do not descend. -/
abbrev Ordered (keyFields : Nat) (tuples : List Tuple) : Prop :=
  tuples.Pairwise fun t u => (compare (t.keyBytes keyFields) (u.keyBytes keyFields)).isLE

theorem ordered_of_ascending {keyFields : Nat} {tuples : List Tuple}
    (h : Ascending keyFields tuples) : Ordered keyFields tuples :=
  h.imp Ordering.isLE_of_eq_lt

theorem ascending_keyed_iff {keyFields : Nat} {tuples : List Tuple} :
    Keyed.Ascending (keyed keyFields tuples) ↔ Ascending keyFields tuples :=
  List.pairwise_map

@[simp] theorem keyed_append (keyFields : Nat) (tuples others : List Tuple) :
    keyed keyFields (tuples ++ others) = keyed keyFields tuples ++ keyed keyFields others :=
  List.map_append

@[simp] theorem values_keyed (keyFields : Nat) (tuples : List Tuple) :
    Keyed.values (keyed keyFields tuples) = tuples := by
  rw [Keyed.values, keyed, List.map_map]
  exact List.map_id tuples

theorem mem_keyed_iff {keyFields : Nat} {tuples : List Tuple} {key : Bytes} {t : Tuple} :
    (key, t) ∈ keyed keyFields tuples ↔ t ∈ tuples ∧ t.keyBytes keyFields = key := by
  rw [keyed, List.mem_map]
  constructor
  · rintro ⟨u, hu, heq⟩
    obtain ⟨hkey, rfl⟩ := Prod.mk.inj heq
    exact ⟨hu, hkey⟩
  · rintro ⟨ht, rfl⟩
    exact ⟨t, ht, rfl⟩

/-- Tuples whose keys ascend are all different. -/
theorem ne_of_ascending {keyFields : Nat} {tuples : List Tuple} (h : Ascending keyFields tuples) :
    tuples.Pairwise (· ≠ ·) := by
  refine h.imp ?_
  rintro t u hlt rfl
  simp at hlt

/-- No tuple has a key under which none is found. -/
theorem find?_keyed_eq_none {keyFields : Nat} {tuples : List Tuple} {key : Bytes}
    (h : ∀ t ∈ tuples, t.keyBytes keyFields ≠ key) :
    Keyed.find? (keyed keyFields tuples) key = none := by
  rw [Keyed.find?_eq_none_iff]
  rintro ⟨k, t⟩ he
  obtain ⟨ht, rfl⟩ := mem_keyed_iff.1 he
  exact h t ht

/-- What a search of tuples for a key may answer: a tuple with this key, and none where no tuple has
it. -/
def Picks (keyFields : Nat) (tuples : List Tuple) (key : Bytes) : Option Tuple → Prop
  | none => ∀ t ∈ tuples, t.keyBytes keyFields ≠ key
  | some t => t ∈ tuples ∧ t.keyBytes keyFields = key

/-- A tuple that alone has its key is the answer under the key. -/
theorem eq_some_of_picks {keyFields : Nat} {tuples : List Tuple} {t : Tuple} {answer : Option Tuple}
    (h : Picks keyFields tuples (t.keyBytes keyFields) answer) (ht : t ∈ tuples)
    (honly : ∀ u ∈ tuples, u.keyBytes keyFields = t.keyBytes keyFields → u = t) :
    answer = some t := by
  cases answer with
  | none => exact absurd rfl (h t ht)
  | some u => exact congrArg some (honly u h.1 h.2)

/-- Where keys ascend there is but one answer under each key. -/
theorem eq_find?_of_picks {keyFields : Nat} {tuples : List Tuple} {key : Bytes}
    {answer : Option Tuple} (h : Picks keyFields tuples key answer)
    (hasc : Ascending keyFields tuples) :
    answer = Keyed.find? (keyed keyFields tuples) key := by
  cases answer with
  | none => exact (find?_keyed_eq_none h).symm
  | some t =>
    rw [eq_comm, Keyed.find?_eq_some_iff (ascending_keyed_iff.2 hasc), mem_keyed_iff]
    exact h

end Strata.Tuple
