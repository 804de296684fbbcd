import Mathlib.Data.List.Nodup
import Mathlib.Logic.Relation
import Strata.Proofs.Store.Contents

/-!
# Annals

The annals of an index have a record of every component file since it was opened. A file that was
merged covers just the flushes its members cover, and holds what is newest in them. So along any
line of merges ranges only grow; where one does not grow, the tuples stay the same.
-/

namespace Strata

namespace Range

theorem le_foldl_union {ranges : List Range} {r : Range} :
    (ranges.foldl union r).contains r = true ∧
      ∀ other ∈ ranges, (ranges.foldl union r).contains other = true := by
  induction ranges generalizing r with
  | nil => simp
  | cons first rest ih =>
    obtain ⟨hunion, hrest⟩ := @ih (r.union first)
    rw [contains_iff] at hunion
    have hleft := contains_iff.1 (contains_union_left r first)
    have hright := contains_iff.1 (contains_union_right r first)
    simp only [List.foldl_cons, List.forall_mem_cons, contains_iff] at hrest ⊢
    exact ⟨by omega, by omega, hrest⟩

theorem foldl_union_le {ranges : List Range} {r : Range} {n : Nat} :
    ((∀ other ∈ r :: ranges, n < other.min) → n < (ranges.foldl union r).min) ∧
      ((∀ other ∈ r :: ranges, other.max < n) → (ranges.foldl union r).max < n) := by
  induction ranges generalizing r with
  | nil => simp
  | cons first rest ih =>
    obtain ⟨hmin, hmax⟩ := @ih (r.union first)
    simp only [List.foldl_cons, List.forall_mem_cons] at hmin hmax ⊢
    constructor
    · rintro ⟨hr, hfirst, hrest⟩
      refine hmin ⟨?_, hrest⟩
      simp only [union]
      omega
    · rintro ⟨hr, hfirst, hrest⟩
      refine hmax ⟨?_, hrest⟩
      simp only [union]
      omega

/-- A span covers every range, and nothing beyond the outermost of them. -/
theorem span_spec {ranges : List Range} {r : Range} (h : span ranges = some r) :
    ranges ≠ [] ∧ (∀ other ∈ ranges, r.contains other = true) ∧
      (∀ n, (∀ other ∈ ranges, n < other.min) → n < r.min) ∧
      ∀ n, (∀ other ∈ ranges, other.max < n) → r.max < n := by
  cases ranges with
  | nil => simp [span] at h
  | cons first rest =>
    obtain rfl := Option.some.inj h
    obtain ⟨hfirst, hrest⟩ := @le_foldl_union rest first
    refine ⟨by simp, ?_, fun n => foldl_union_le.1, fun n => foldl_union_le.2⟩
    rw [List.forall_mem_cons]
    exact ⟨hfirst, hrest⟩

/-- A span is in order where the ranges are, and ends before a flush where they do. -/
theorem bounds_of_span {ranges : List Range} {r : Range} {n : Nat} (h : span ranges = some r)
    (hbounds : ∀ a ∈ ranges, a.min ≤ a.max ∧ a.max < n) : r.min ≤ r.max ∧ r.max < n := by
  obtain ⟨hne, hcovers, -, hbelow⟩ := span_spec h
  obtain ⟨a, ha⟩ := List.exists_mem_of_ne_nil ranges hne
  have hcontains := contains_iff.1 (hcovers a ha)
  have hordered := (hbounds a ha).1
  exact ⟨by omega, hbelow n fun b hb => (hbounds b hb).2⟩

theorem eq_of_contains {a b : Range} (hab : a.contains b = true) (hba : b.contains a = true) :
    a = b := by
  obtain ⟨amin, amax⟩ := a
  obtain ⟨bmin, bmax⟩ := b
  rw [contains_iff] at hab hba
  simp only [mk.injEq]
  simp only at hab hba
  omega

theorem contains_trans {a b c : Range} (hab : a.contains b = true) (hbc : b.contains c = true) :
    a.contains c = true := by
  rw [contains_iff] at *
  omega

end Range

/-- Every flush a component covers is newer than those another covers. -/
def Component.Newer (a b : Component) : Prop := b.range.max < a.range.min

/-- Ranges stay in order where a component that spans those of some that stand together takes their
place. -/
theorem Component.newer_replace {newer members older : List Component} {c : Component}
    (h : (newer ++ members ++ older).Pairwise Component.Newer)
    (hspan : Range.span (members.map Component.range) = some c.range) :
    (newer ++ [c] ++ older).Pairwise Component.Newer := by
  obtain ⟨-, -, hmin, hmax⟩ := Range.span_spec hspan
  obtain ⟨hleft, holder, hacross⟩ := List.pairwise_append.1 h
  obtain ⟨hnewer, -, hbetween⟩ := List.pairwise_append.1 hleft
  have habove : ∀ a ∈ newer, a.Newer c := fun a ha =>
    hmax _ (List.forall_mem_map.2 fun m hm => hbetween a ha m hm)
  have hbelow : ∀ b ∈ older, c.Newer b := fun b hb =>
    hmin _ (List.forall_mem_map.2 fun m hm => hacross m (List.mem_append_right _ hm) b hb)
  refine List.pairwise_append.2 ⟨List.pairwise_append.2 ⟨hnewer, List.pairwise_singleton _ _, ?_⟩,
    holder, ?_⟩
  · intro a ha b hb
    rw [List.mem_singleton.1 hb]
    exact habove a ha
  · intro a ha b hb
    rcases List.mem_append.1 ha with ha | ha
    · exact hacross a (List.mem_append_left _ ha) b hb
    · rw [List.mem_singleton.1 ha]
      exact hbelow b hb

/-- Every flush a record covers is newer than those another covers. -/
def Record.Newer (a b : Record) : Prop := a.component.Newer b.component

/-- Records, the newest first, are what a merge makes of: its range and its tuples. -/
structure Reading.Makes (r : Reading) (parts : List Record) (range : Range) (tuples : List Tuple) :
    Prop where
  newer : parts.Pairwise Record.Newer
  span : Range.span (parts.map fun a => a.component.range) = some range
  yields : ∀ key, r.find? tuples key = r.newest parts key

/-- A record is an input of another: of the merge that made it. -/
def Record.Input (annals : List Record) (a b : Record) : Prop :=
  a ∈ annals ∧ b ∈ annals ∧ a.component ∈ b.members

/-- Records that tell each component by its count, and where it comes from. -/
structure Annals (r : Reading) (annals : List Record) : Prop where
  sound : ∀ a ∈ annals, a.Sound r
  serials : (annals.map fun a => a.component.serial).Nodup
  made : ∀ a ∈ annals, a.members ≠ [] → ∃ parts, (∀ p ∈ parts, p ∈ annals) ∧
    parts.map Record.component = a.members ∧ r.Makes parts a.component.range a.tuples

namespace Annals

variable {r : Reading} {annals : List Record} {a b c : Record}

theorem eq_of_serial_eq (h : Annals r annals) (ha : a ∈ annals) (hb : b ∈ annals)
    (heq : a.component.serial = b.component.serial) : a = b :=
  List.inj_on_of_nodup_map h.serials ha hb heq

/-- Components tell their records. -/
theorem eq_of_map_eq (h : Annals r annals) {parts others : List Record}
    (hparts : ∀ p ∈ parts, p ∈ annals) (hothers : ∀ p ∈ others, p ∈ annals)
    (heq : parts.map Record.component = others.map Record.component) : parts = others := by
  induction parts generalizing others with
  | nil =>
    exact (List.map_eq_nil_iff.1 heq.symm).symm
  | cons p parts ih =>
    cases others with
    | nil => simp at heq
    | cons q others =>
      obtain ⟨hcomponent, hrest⟩ := List.cons.inj heq
      rw [List.forall_mem_cons] at hparts hothers
      rw [h.eq_of_serial_eq hparts.1 hothers.1 (congrArg Component.serial hcomponent),
        ih hparts.2 hothers.2 hrest]

/-- Tuples are told by what they have under each key. -/
theorem tuples_eq (h : Annals r annals) (ha : a ∈ annals) (hb : b ∈ annals)
    (hfind : ∀ key, r.find? a.tuples key = r.find? b.tuples key) : a.tuples = b.tuples := by
  have hkeyed := Keyed.eq_of_find?_eq
    (Tuple.ascending_keyed_iff.2 (h.sound a ha).admits.ascending)
    (Tuple.ascending_keyed_iff.2 (h.sound b hb).admits.ascending) hfind
  have hvalues := congrArg Keyed.values hkeyed
  rwa [Tuple.values_keyed, Tuple.values_keyed] at hvalues

/-- Of what a merge is made of, a part that covers all of it is all of it. -/
theorem parts_eq_singleton {parts : List Record} {range : Range} {tuples : List Tuple}
    (h : Annals r annals) (hparts : ∀ p ∈ parts, p ∈ annals) (hmakes : r.Makes parts range tuples)
    {p : Record} (hp : p ∈ parts) (heq : p.component.range = range) : parts = [p] := by
  have hcovers : ∀ q ∈ parts, p.component.range.contains q.component.range = true ∧
      q.component.range.min ≤ q.component.range.max := by
    intro q hq
    refine ⟨?_, (h.sound q (hparts q hq)).file.ordered⟩
    rw [heq]
    exact (Range.span_spec hmakes.span).2.1 _ (List.mem_map_of_mem hq)
  obtain ⟨front, back, rfl⟩ := List.append_of_mem hp
  obtain ⟨-, hback, hcross⟩ := List.pairwise_append.1 hmakes.newer
  have hfront : front = [] := by
    rw [List.eq_nil_iff_forall_not_mem]
    intro q hq
    have hnewer : p.component.range.max < q.component.range.min := hcross q hq p List.mem_cons_self
    obtain ⟨hcontains, hordered⟩ := hcovers q (List.mem_append_left _ hq)
    rw [Range.contains_iff] at hcontains
    omega
  have hnone : back = [] := by
    rw [List.eq_nil_iff_forall_not_mem]
    intro q hq
    have hnewer : q.component.range.max < p.component.range.min :=
      (List.pairwise_cons.1 hback).1 q hq
    obtain ⟨hcontains, hordered⟩ := hcovers q (by simp [hq])
    rw [Range.contains_iff] at hcontains
    omega
  rw [hfront, hnone]
  rfl

theorem input_spec (h : Annals r annals) (hinput : Record.Input annals a b) :
    b.component.range.contains a.component.range = true ∧
      (a.component.range = b.component.range →
        b.members = [a.component] ∧ a.tuples = b.tuples) := by
  obtain ⟨ha, hb, hmember⟩ := hinput
  obtain ⟨parts, hparts, hmembers, hmakes⟩ := h.made b hb (List.ne_nil_of_mem hmember)
  rw [← hmembers] at hmember
  obtain ⟨p, hp, hcomponent⟩ := List.mem_map.1 hmember
  obtain rfl := h.eq_of_serial_eq (hparts p hp) ha (congrArg Component.serial hcomponent)
  refine ⟨(Range.span_spec hmakes.span).2.1 _ (List.mem_map_of_mem hp), fun heq => ?_⟩
  obtain rfl := parts_eq_singleton h hparts hmakes hp heq
  refine ⟨hmembers.symm, h.tuples_eq ha hb fun key => ?_⟩
  rw [hmakes.yields key, Reading.newest_cons, Reading.newest_nil, Option.or_none]

/-- Along a line of merges ranges grow, or the tuples stay the same. -/
theorem line_spec (h : Annals r annals) (hline : Relation.ReflTransGen (Record.Input annals) a b) :
    b.component.range.contains a.component.range = true ∧
      (a.component.range = b.component.range → a.tuples = b.tuples) := by
  induction hline with
  | refl => simp
  | tail hline hinput ih =>
    obtain ⟨hcontains, hsame⟩ := ih
    obtain ⟨hcontains', hsame'⟩ := h.input_spec hinput
    refine ⟨Range.contains_trans hcontains' hcontains, fun heq => ?_⟩
    rw [heq] at hcontains
    have hmid := Range.eq_of_contains hcontains' hcontains
    rw [hsame (heq.trans hmid), (hsame' hmid.symm).2]

/-- Whatever went into a component went into any other of the same range on its line, or holds the
same tuples. -/
theorem line_of_twin (h : Annals r annals) (ha : Relation.ReflTransGen (Record.Input annals) a c)
    (hb : Relation.ReflTransGen (Record.Input annals) b c)
    (hrange : b.component.range = c.component.range) :
    Relation.ReflTransGen (Record.Input annals) a b ∨
      a.component.range = b.component.range ∧ a.tuples = b.tuples := by
  induction hb generalizing a with
  | refl => exact .inl ha
  | @tail m c hline hinput ih =>
    have hcontains := (h.line_spec hline).1
    obtain ⟨hcovers, hsame⟩ := h.input_spec hinput
    rw [hrange] at hcontains
    have hmid := Range.eq_of_contains hcontains hcovers
    obtain ⟨hmembers, htuples⟩ := hsame hmid
    rcases Relation.ReflTransGen.cases_tail ha with rfl | ⟨m', hline', hinput'⟩
    · refine .inr ⟨hrange.symm, ?_⟩
      rw [← htuples]
      exact ((h.line_spec hline).2 (hrange.trans hmid.symm)).symm
    · have hmember := hinput'.2.2
      rw [hmembers, List.mem_singleton] at hmember
      obtain rfl := h.eq_of_serial_eq hinput'.1 hinput.1 (congrArg Component.serial hmember)
      exact ih hline' (hrange.trans hmid.symm)

end Annals

end Strata
