import Strata.Component.Roster

/-!
# The list of components as a list

As long as no number occurs twice, a roster is just a list of components, and what is done to it is
done to the list: the newest one is put in front, and the result of a merge stands where its members
stood.
-/

namespace Strata

/-- A member is put between two parts of a list. -/
theorem insertIdx_append {α : Type} (front back : List α) (a : α) :
    (front ++ back).insertIdx front.length a = front ++ [a] ++ back := by
  induction front with
  | nil => rfl
  | cons b front ih =>
    rw [List.cons_append, List.length_cons, List.insertIdx_succ_cons, ih]
    rfl

namespace Roster

variable {r roster : Roster} {ids : List Nat} {result : Component}

/-- The numbers newer than all of some. -/
def newer (r : Roster) (ids : List Nat) : List Nat := r.order.takeWhile (· ∉ ids)

/-- The numbers from the newest of some on. -/
def fromNewest (r : Roster) (ids : List Nat) : List Nat := r.order.dropWhile (· ∉ ids)

theorem not_mem_of_mem_newer {id : Nat} (h : id ∈ r.newer ids) : id ∉ ids := by
  have hall := List.all_takeWhile (p := fun id => decide (id ∉ ids)) (l := r.order)
  exact of_decide_eq_true (List.all_eq_true.1 hall id h)

theorem newer_append_fromNewest (r : Roster) (ids : List Nat) :
    r.newer ids ++ r.fromNewest ids = r.order :=
  List.takeWhile_append_dropWhile

/-- What is left where some numbers are taken out. -/
theorem filter_order (r : Roster) (ids : List Nat) :
    r.order.filter (· ∉ ids) = r.newer ids ++ (r.fromNewest ids).filter (· ∉ ids) := by
  conv => lhs; rw [← newer_append_fromNewest r ids]
  rw [List.filter_append, List.filter_eq_self.2]
  intro id hid
  exact decide_eq_true (not_mem_of_mem_newer hid)

/-- The order is cut in front of the newest of some numbers in one way only. -/
theorem cut_eq {front back : List Nat} (h : r.order = front ++ back)
    (hfront : ∀ id ∈ front, id ∉ ids) (hback : ∀ id ∈ back.head?, id ∈ ids) :
    r.newer ids = front ∧ r.fromNewest ids = back := by
  have hpos : ∀ id ∈ front, decide (id ∉ ids) = true := fun id hid => decide_eq_true (hfront id hid)
  rw [newer, fromNewest, h, List.takeWhile_append_of_pos hpos, List.dropWhile_append_of_pos hpos]
  cases back with
  | nil => simp
  | cons newest others =>
    have hnewest : newest ∈ ids := hback newest rfl
    simp [hnewest]

/-- The place of the newest of some numbers is behind all newer ones. -/
theorem position_eq (r : Roster) (ids : List Nat) : r.position ids = (r.newer ids).length := by
  rw [position, newer]
  induction r.order with
  | nil => rfl
  | cons id rest ih =>
    rw [List.findIdx?_cons]
    by_cases h : id ∈ ids
    · simp [h]
    · cases hfirst : rest.findIdx? (· ∈ ids) with
      | none => simpa [h, hfirst] using ih
      | some i => simpa [h, hfirst] using ih

theorem missing?_eq_none_iff : r.missing? ids = none ↔ ∀ id ∈ ids, (r.get? id).isSome := by
  simp [missing?, Option.isSome_iff_ne_none]

/-- A merge whose members are all found takes them out and puts its result behind all numbers newer
than theirs. -/
theorem replace_eq_ok_iff : r.replace ids result = .ok roster ↔
    (∀ id ∈ ids, (r.get? id).isSome) ∧
      roster.order = r.newer ids ++ result.id :: (r.fromNewest ids).filter (· ∉ ids) ∧
      roster.table = put (r.table.filter (·.1 ∉ ids)) result := by
  rw [← missing?_eq_none_iff, replace]
  cases r.missing? ids with
  | some id => simp
  | none =>
    obtain ⟨order, table⟩ := roster
    simp only [filter_order, position_eq, insertIdx_append, List.append_assoc,
      List.singleton_append, Except.ok.injEq, Roster.mk.injEq, true_and]
    rw [eq_comm (a := order), eq_comm (a := table)]

theorem missing?_eq_some_iff {id : Nat} : r.missing? ids = some id ↔
    r.get? id = none ∧
      ∃ found others, ids = found ++ id :: others ∧ ∀ other ∈ found, (r.get? other).isSome := by
  rw [missing?, List.find?_eq_some_iff_append]
  simp [Option.isSome_iff_ne_none]

/-- A merge is refused for the first of its members that is not found. -/
theorem replace_eq_error_iff {e : Error} : r.replace ids result = .error e ↔
    ∃ id, r.missing? ids = some id ∧ e = .damage (.unknownMember id) := by
  rw [replace]
  cases r.missing? ids <;> simp [eq_comm]

theorem get?_replace (h : r.replace ids result = .ok roster) (id : Nat) :
    roster.get? id =
      if id = result.id then some result else if id ∈ ids then none else r.get? id := by
  rw [get?, (replace_eq_ok_iff.1 h).2.2, lookup_put,
    Lookup.lookup_filter fun id => decide (id ∉ ids)]
  by_cases hmem : id ∈ ids <;> simp [hmem, get?]

theorem exists_get?_of_mem {r : Roster} {c : Component} (h : c ∈ r.newestFirst) :
    ∃ id, r.get? id = some c := by
  obtain ⟨id, -, hget⟩ := List.mem_filterMap.1 h
  exact ⟨id, hget⟩

/-- The components a roster lists, newest first, each under a number of its own. -/
structure Lists (r : Roster) (components : List Component) : Prop where
  order : r.order = components.map Component.id
  found : ∀ c ∈ components, r.get? c.id = some c
  nodup : (components.map Component.id).Nodup

theorem lists_nil : Lists {} [] where
  order := rfl
  found := by simp
  nodup := List.nodup_nil

theorem newestFirst_of_lists {r : Roster} {components : List Component} (h : r.Lists components) :
    r.newestFirst = components := by
  have hfound := h.found
  rw [newestFirst, h.order, List.filterMap_map]
  clear h
  induction components with
  | nil => rfl
  | cons c rest ih =>
    rw [List.forall_mem_cons] at hfound
    rw [List.filterMap_cons_some (f := r.get? ∘ Component.id) hfound.1, ih hfound.2]

/-- A new component comes first. -/
theorem lists_prepend {r : Roster} {components : List Component} (h : r.Lists components)
    {c : Component} (hnew : c.id ∉ components.map Component.id) :
    (r.prepend c).Lists (c :: components) := by
  refine ⟨?_, fun d hd => ?_, List.nodup_cons.2 ⟨hnew, h.nodup⟩⟩
  · rw [order_prepend, h.order]
    rfl
  · rcases List.mem_cons.1 hd with rfl | hd
    · rw [get?_prepend, if_pos rfl]
    · rw [get?_prepend, if_neg, h.found d hd]
      intro heq
      exact hnew (heq ▸ List.mem_map_of_mem hd)

theorem lists_append {r : Roster} {components : List Component} (h : r.Lists components)
    {c : Component} (hnew : c.id ∉ components.map Component.id) :
    (r.append c).Lists (components ++ [c]) := by
  refine ⟨?_, fun d hd => ?_, ?_⟩
  · rw [order_append, h.order, List.map_append]
    rfl
  · rcases List.mem_append.1 hd with hd | hd
    · rw [get?_append, if_neg, h.found d hd]
      intro heq
      exact hnew (heq ▸ List.mem_map_of_mem hd)
    · rw [List.mem_singleton.1 hd, get?_append, if_pos rfl]
  · rw [List.map_append]
    refine List.nodup_append.2 ⟨h.nodup, List.pairwise_singleton _ _, fun id hid other hother => ?_⟩
    rw [List.map_singleton, List.mem_singleton] at hother
    rintro rfl
    exact hnew (hother ▸ hid)

/-- Components taken in one after the other are listed in that order. -/
theorem lists_foldl {r : Roster} {components more : List Component} (h : r.Lists components)
    (hnodup : ((components ++ more).map Component.id).Nodup) :
    (more.foldl append r).Lists (components ++ more) := by
  induction more generalizing r components with
  | nil =>
    rw [List.append_nil]
    exact h
  | cons c more ih =>
    rw [List.append_cons] at hnodup ⊢
    have hnew : c.id ∉ components.map Component.id := by
      rw [List.map_append, List.map_append] at hnodup
      have hdisjoint := (List.nodup_append.1 (List.nodup_append.1 hnodup).1).2.2
      intro hmem
      exact hdisjoint c.id hmem c.id (by simp) rfl
    exact ih (lists_append h hnew) hnodup

/-- Members that stand together are replaced where they stand. -/
theorem replace_eq_ok {r : Roster} {newer members older : List Component} {result : Component}
    (h : r.Lists (newer ++ members ++ older)) (hmembers : members ≠ [])
    (hnew : result.id ∉ (newer ++ older).map Component.id) :
    ∃ r', r.replace (members.map Component.id) result = .ok r' ∧
      r'.Lists (newer ++ [result] ++ older) := by
  have hperm : (newer ++ members ++ older).Perm (members ++ (newer ++ older)) := by
    rw [← List.append_assoc]
    exact List.perm_append_comm.append_right older
  have hnodup := h.nodup
  rw [(hperm.map Component.id).nodup_iff, List.map_append, List.nodup_append] at hnodup
  obtain ⟨-, hothers, hacross⟩ := hnodup
  have hapart : ∀ c ∈ newer ++ older, c.id ∉ members.map Component.id := fun c hc hmem =>
    hacross c.id hmem c.id (List.mem_map_of_mem hc) rfl
  have hcut : r.newer (members.map Component.id) = newer.map Component.id ∧
      r.fromNewest (members.map Component.id) = (members ++ older).map Component.id := by
    refine cut_eq ?_ ?_ ?_
    · rw [h.order, List.append_assoc, List.map_append]
    · intro id hid
      obtain ⟨c, hc, rfl⟩ := List.mem_map.1 hid
      exact hapart c (List.mem_append_left _ hc)
    · obtain ⟨newest, rest, rfl⟩ := List.exists_cons_of_ne_nil hmembers
      simp
  have hrest : (r.fromNewest (members.map Component.id)).filter (· ∉ members.map Component.id) =
      older.map Component.id := by
    rw [hcut.2, List.map_append, List.filter_append, List.filter_eq_nil_iff.2,
      List.filter_eq_self.2, List.nil_append]
    · intro id hid
      obtain ⟨c, hc, rfl⟩ := List.mem_map.1 hid
      exact decide_eq_true (hapart c (List.mem_append_right _ hc))
    · intro id hid
      simp [hid]
  have hfound : ∀ id ∈ members.map Component.id, (r.get? id).isSome := by
    intro id hid
    obtain ⟨c, hc, rfl⟩ := List.mem_map.1 hid
    rw [h.found c (by simp [hc])]
    rfl
  obtain ⟨roster, hreplace⟩ : ∃ roster, r.replace (members.map Component.id) result = .ok roster :=
    ⟨⟨_, _⟩, replace_eq_ok_iff.2 ⟨hfound, rfl, rfl⟩⟩
  refine ⟨roster, hreplace, ?_, ?_, ?_⟩
  · rw [(replace_eq_ok_iff.1 hreplace).2.1, hcut.1, hrest]
    simp
  · intro c hc
    rw [get?_replace hreplace]
    by_cases hresult : c = result
    · simp [hresult]
    · have hother : c ∈ newer ++ older := by simpa [hresult] using hc
      have hne : c.id ≠ result.id := fun heq => hnew (heq ▸ List.mem_map_of_mem hother)
      rw [if_neg hne, if_neg (hapart c hother)]
      exact h.found c (hperm.symm.subset (List.mem_append_right _ hother))
  · have hmiddle : (newer ++ [result] ++ older).Perm (result :: (newer ++ older)) := by
      rw [List.append_assoc]
      exact List.perm_middle
    rw [(hmiddle.map Component.id).nodup_iff, List.map_cons, List.nodup_cons]
    exact ⟨hnew, hothers⟩

end Roster

end Strata
