import Mathlib.Data.List.Induction
import Strata.Proofs.Keyed

/-!
# What a memory holds

A memory is put into, cleared and taken from, in any order. Throughout it holds each key once, by
ascending key, with the tuple that was last put in under it since the memory was last empty. The
count of its bytes is what its entries need together. It is kept by adding what comes in and taking
off what is replaced, of which there is never more than was counted.
-/

namespace Strata.Memory

variable {m : Memory}

/-- What is done to a memory. -/
inductive Use where
  | insert (key : Bytes) (tuple : Tuple)
  | clear
  | take

/-- A use leaves what is under a key. -/
def Use.Spares (key : Bytes) : Use → Prop
  | .insert other _ => other ≠ key
  | .clear | .take => False

/-- A memory after a use. -/
def use (m : Memory) : Use → Memory
  | .insert key tuple => m.insert key tuple
  | .clear => m.clear
  | .take => m.take.2

/-- A memory after some uses. -/
def used (m : Memory) (uses : List Use) : Memory := uses.foldl use m

@[simp] theorem used_concat (m : Memory) (uses : List Use) (u : Use) :
    m.used (uses ++ [u]) = (m.used uses).use u := by
  simp [used]

@[simp] theorem budget_used (m : Memory) (uses : List Use) : (m.used uses).budget = m.budget := by
  induction uses using List.reverseRecOn with
  | nil => rfl
  | append_singleton uses u ih =>
    rw [used_concat, ← ih]
    cases u <;> rfl

/-- The tuple is the last one put in under the key, and the memory was not emptied since. -/
def Latest (uses : List Use) (key : Bytes) (tuple : Tuple) : Prop :=
  ∃ before after, uses = before ++ .insert key tuple :: after ∧ ∀ u ∈ after, u.Spares key

theorem latest_concat_iff {uses : List Use} {u : Use} {key : Bytes} {tuple : Tuple} :
    Latest (uses ++ [u]) key tuple ↔
      u = .insert key tuple ∨ u.Spares key ∧ Latest uses key tuple := by
  constructor
  · rintro ⟨before, after, heq, hspares⟩
    rcases List.eq_nil_or_concat after with rfl | ⟨after, last, rfl⟩
    · left
      exact List.singleton_inj.1 (List.append_inj' heq rfl).2
    · right
      rw [List.concat_eq_append, ← List.cons_append, ← List.append_assoc] at heq
      obtain ⟨rfl, hlast⟩ := List.append_inj' heq rfl
      obtain rfl := List.singleton_inj.1 hlast
      refine ⟨hspares u (by simp), before, after, rfl, ?_⟩
      intro v hv
      exact hspares v (by simp [hv])
  · rintro (rfl | ⟨hu, before, after, rfl, hspares⟩)
    · exact ⟨uses, [], rfl, by simp⟩
    · refine ⟨before, after ++ [u], by simp, ?_⟩
      intro v hv
      rcases List.mem_append.1 hv with hv | hv
      · exact hspares v hv
      · rwa [List.mem_singleton.1 hv]

theorem get?_use_iff {u : Use} {key : Bytes} {tuple : Tuple} :
    (m.use u).get? key = some tuple ↔
      u = .insert key tuple ∨ u.Spares key ∧ m.get? key = some tuple := by
  cases u with
  | insert other t =>
    by_cases h : other = key <;> simp [use, Use.Spares, h]
  | clear => simp [use, Use.Spares, clear, get?, Keyed.find?]
  | take => simp [use, Use.Spares, take, clear, get?, Keyed.find?]

theorem get?_used_iff {uses : List Use} (hempty : m.tuples = []) {key : Bytes} {tuple : Tuple} :
    (m.used uses).get? key = some tuple ↔ Latest uses key tuple := by
  induction uses using List.reverseRecOn with
  | nil => simp [used, get?, hempty, Keyed.find?, Latest]
  | append_singleton uses u ih => rw [used_concat, get?_use_iff, latest_concat_iff, ih]

/-- Each key is there once, and the count of the bytes is what the entries need together. -/
structure Accounted (m : Memory) : Prop where
  ascending : Keyed.Ascending m.tuples
  counted : m.bytes = Keyed.weight entrySize m.tuples

theorem accounted_of_empty (htuples : m.tuples = []) (hbytes : m.bytes = 0) : m.Accounted := by
  constructor
  · rw [htuples]
    exact List.Pairwise.nil
  · rw [htuples, hbytes]
    rfl

/-- No more is ever taken off the count than is in it. -/
theorem sizeAt_le (h : m.Accounted) (key : Bytes) : m.sizeAt key ≤ m.bytes := by
  rw [h.counted]
  exact Keyed.find?_weight_le m.tuples entrySize key

theorem accounted_use (h : m.Accounted) (u : Use) : (m.use u).Accounted := by
  cases u with
  | insert key tuple =>
    constructor
    · exact Keyed.ascending_insert h.ascending key tuple
    · have hweight := Keyed.weight_insert h.ascending entrySize key tuple
      have hle := sizeAt_le h key
      have hcounted := h.counted
      simp only [use, insert, sizeAt] at hle ⊢
      omega
  | clear => exact accounted_of_empty rfl rfl
  | take => exact accounted_of_empty rfl rfl

theorem accounted_used (h : m.Accounted) (uses : List Use) : (m.used uses).Accounted := by
  induction uses using List.reverseRecOn with
  | nil => exact h
  | append_singleton uses u ih =>
    rw [used_concat]
    exact accounted_use ih u

/-- After any uses of a new memory, the bytes counted are those its entries need. Under a key is the
tuple last put in since the memory was last empty, and entries are shown by ascending key. The
budget is used up just where the entries need it. -/
theorem accounted_after_uses (budget : Nat) (uses : List Use) :
    let m := ({ budget } : Memory).used uses
    let needed := (m.tuples.map fun e => e.1.length + (e.2.map List.length).sum + 32).sum
    m.bytes = needed ∧ (∀ key, m.sizeAt key ≤ m.bytes) ∧
    (∀ key tuple, m.get? key = some tuple ↔ Latest uses key tuple) ∧
    Keyed.Ascending m.tuples ∧
    (∀ key tuple, (key, tuple) ∈ m.tuples ↔ m.get? key = some tuple) ∧
    m.take = (m.tuples, { budget }) ∧ (m.isFull = true ↔ budget ≤ needed) := by
  intro m needed
  have h : m.Accounted := accounted_used (accounted_of_empty rfl rfl) uses
  have hbudget : m.budget = budget := budget_used _ uses
  have hneeded : m.bytes = needed := h.counted
  refine ⟨hneeded, sizeAt_le h, ?_, h.ascending, ?_, ?_, ?_⟩
  · intro key tuple
    exact get?_used_iff rfl
  · intro key tuple
    exact (Keyed.find?_eq_some_iff h.ascending).symm
  · rw [take, clear, hbudget]
  · rw [isFull, hbudget, hneeded, decide_eq_true_iff]

end Strata.Memory
