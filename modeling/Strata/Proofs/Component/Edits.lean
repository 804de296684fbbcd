import Mathlib.Data.List.Dedup
import Strata.Proofs.Component.Places

/-!
# Rosters after any edits

The order and the table of a roster are changed apart from each other. Whatever components are put
in and merged, under whatever numbers, both hold the same: a number stands in the order just where
the table has a component under it, which is one of this number. So every place shows a component.
A merge that names a number of no component is refused and changes nothing. Any other leaves all
numbers but those of its members in their order, with its result where the newest member stood.
-/

namespace Strata

namespace Roster

variable {r roster : Roster} {ids : List Nat} {result : Component}

/-- What is done to a roster. -/
inductive Edit where
  | prepend (c : Component)
  | append (c : Component)
  | replace (members : List Nat) (result : Component)

/-- The component an edit puts in. -/
def Edit.added : Edit → Component
  | .prepend c | .append c => c
  | .replace _ result => result

/-- The numbers an edit takes out. -/
def Edit.removed : Edit → List Nat
  | .prepend _ | .append _ => []
  | .replace members _ => members

/-- A roster after an edit, and the answer. -/
def edit (r : Roster) : Edit → Roster × Except Error Unit
  | .prepend c => (r.prepend c, .ok ())
  | .append c => (r.append c, .ok ())
  | .replace members result =>
    match r.replace members result with
    | .ok roster => (roster, .ok ())
    | .error e => (r, .error e)

/-- A roster after some edits, of which some may have been refused. -/
def edited (r : Roster) (edits : List Edit) : Roster := edits.foldl (fun r e => (r.edit e).1) r

/-- Each edit that is not refused puts in a component under a number that none has then. -/
def Fresh (r : Roster) : List Edit → Prop
  | [] => True
  | e :: rest => ((r.edit e).2 = .ok () → e.added.id ∉ r.order) ∧ Fresh (r.edit e).1 rest

theorem edit_replace_eq_ok (h : (r.edit (.replace ids result)).2 = .ok ()) :
    r.replace ids result = .ok (r.edit (.replace ids result)).1 := by
  rw [edit] at h ⊢
  cases hreplace : r.replace ids result with
  | ok roster => rfl
  | error e => simp [hreplace] at h

theorem edit_replace_eq_error {e : Error} (h : (r.edit (.replace ids result)).2 = .error e) :
    r.replace ids result = .error e ∧ (r.edit (.replace ids result)).1 = r := by
  rw [edit] at h ⊢
  cases hreplace : r.replace ids result with
  | ok roster => simp [hreplace] at h
  | error e' => simpa [hreplace] using h

section table

variable {table : List (Nat × Component)}

/-- A table has each component once, under its own number. -/
structure Filed (table : List (Nat × Component)) : Prop where
  once : (table.map Prod.fst).Nodup
  own : ∀ entry ∈ table, entry.2.id = entry.1

theorem filed_filter (h : Filed table) (p : Nat × Component → Bool) : Filed (table.filter p) := by
  constructor
  · exact h.once.sublist (List.filter_sublist.map Prod.fst)
  · intro entry hentry
    exact h.own entry (List.mem_filter.1 hentry).1

theorem filed_put (h : Filed table) (c : Component) : Filed (put table c) := by
  have hrest := filed_filter h fun entry => entry.1 ≠ c.id
  constructor
  · rw [put, List.map_cons, List.nodup_cons]
    exact ⟨by simp, hrest.once⟩
  · intro entry hentry
    rcases List.mem_cons.1 hentry with rfl | hentry
    · rfl
    · exact hrest.own entry hentry

theorem filed_replace (h : Filed r.table) (hreplace : r.replace ids result = .ok roster) :
    Filed roster.table := by
  rw [(replace_eq_ok_iff.1 hreplace).2.2]
  exact filed_put (filed_filter h _) result

theorem isSome_get?_iff (r : Roster) (id : Nat) :
    (r.get? id).isSome ↔ id ∈ r.table.map Prod.fst := by
  rw [get?, List.lookup_isSome_iff, List.mem_map]
  refine exists_congr fun entry => and_congr_right fun _ => ?_
  rw [beq_iff_eq]
  exact eq_comm

theorem id_of_get? (h : Filed r.table) {id : Nat} {c : Component} (hget : r.get? id = some c) :
    c.id = id := by
  obtain ⟨front, back, htable, -⟩ := List.lookup_eq_some_iff.1 hget
  exact h.own (id, c) (by simp [htable])

end table

/-- Order and table hold the same numbers. -/
structure Consistent (r : Roster) : Prop extends Filed r.table where
  keys : ∀ id, id ∈ r.order ↔ id ∈ r.table.map Prod.fst

theorem Consistent.whole (h : r.Consistent) : r.Whole := by
  intro id
  rw [h.keys, isSome_get?_iff]

theorem consistent_of_whole (hfiled : Filed r.table) (hwhole : r.Whole) : r.Consistent :=
  ⟨hfiled, fun id => (hwhole id).trans (isSome_get?_iff r id)⟩

theorem consistent_nil : Consistent {} := consistent_of_whole ⟨by simp, by simp⟩ whole_nil

theorem consistent_edit (h : r.Consistent) (e : Edit) : (r.edit e).1.Consistent := by
  cases e with
  | prepend c => exact consistent_of_whole (filed_put h.toFiled c) (whole_prepend h.whole c)
  | append c => exact consistent_of_whole (filed_put h.toFiled c) (whole_append h.whole c)
  | replace members result =>
    rw [edit]
    split
    · rename_i roster hreplace
      exact consistent_of_whole (filed_replace h.toFiled hreplace) (whole_replace h.whole hreplace)
    · exact h

theorem consistent_edited (h : r.Consistent) (edits : List Edit) :
    (r.edited edits).Consistent := by
  induction edits generalizing r with
  | nil => exact h
  | cons e rest ih => exact ih (consistent_edit h e)

/-- Each place is looked up with success, and shows a component of the number that stands there. -/
theorem snapshot_spec (h : r.Consistent) :
    r.snapshot = .ok r.newestFirst ∧ r.newestFirst.map Component.id = r.order := by
  have hall : ∀ ids : List Nat, (∀ id ∈ ids, id ∈ r.order) →
      ids.mapM (fun id => Outcome.ofOption (r.get? id)) = .ok (ids.filterMap r.get?) ∧
        (ids.filterMap r.get?).map Component.id = ids := by
    intro ids hids
    induction ids with
    | nil => exact ⟨rfl, rfl⟩
    | cons id rest ih =>
      rw [List.forall_mem_cons] at hids
      obtain ⟨c, hc⟩ := Option.isSome_iff_exists.1 ((h.whole id).1 hids.1)
      obtain ⟨hmap, hrest⟩ := ih hids.2
      rw [List.mapM_cons, hmap, List.filterMap_cons_some hc, List.map_cons, hrest, hc,
        id_of_get? h.toFiled hc]
      exact ⟨rfl, rfl⟩
  exact hall r.order fun id hid => hid

/-- A merge is refused just where a member is the number of no component. -/
theorem refused_iff (h : r.Consistent) :
    (∃ e, (r.edit (.replace ids result)).2 = .error e) ↔ ∃ id ∈ ids, id ∉ r.order := by
  constructor
  · rintro ⟨e, he⟩
    obtain ⟨id, hmissing, -⟩ := replace_eq_error_iff.1 (edit_replace_eq_error he).1
    obtain ⟨hnone, found, others, rfl, -⟩ := missing?_eq_some_iff.1 hmissing
    refine ⟨id, by simp, ?_⟩
    rw [h.whole id, hnone]
    simp
  · rintro ⟨id, hid, hnot⟩
    cases hanswer : (r.edit (.replace ids result)).2 with
    | error e => exact ⟨e, rfl⟩
    | ok u =>
      have hfound := (replace_eq_ok_iff.1 (edit_replace_eq_ok hanswer)).1 id hid
      exact absurd ((h.whole id).2 hfound) hnot

/-- What a merge leaves. Nothing is left of its members, all other numbers keep their order and show
the components they have shown. The result stands where the newest member stood, at the oldest end
if there is no member. -/
structure Merged (r : Roster) (members : List Nat) (result : Component) (roster : Roster) :
    Prop where
  gone : ∀ id ∈ members, id ≠ result.id → id ∉ roster.order ∧ roster.get? id = none
  place : ∃ newer rest, r.order = newer ++ rest ∧ (∀ id ∈ newer, id ∉ members) ∧
    (∀ newest ∈ rest.head?, newest ∈ members) ∧ (rest = [] ↔ members = []) ∧
    roster.order = newer ++ result.id :: rest.filter (· ∉ members)
  shown : roster.get? result.id = some result
  kept : ∀ id ∉ members, id ≠ result.id → roster.get? id = r.get? id

/-- The newest member stands in the order, if there is any member. -/
theorem fromNewest_eq_nil_iff (h : r.Whole) (hfound : ∀ id ∈ ids, (r.get? id).isSome) :
    r.fromNewest ids = [] ↔ ids = [] := by
  constructor
  · intro hnil
    rw [List.eq_nil_iff_forall_not_mem]
    intro id hid
    have horder : id ∈ r.newer ids ++ r.fromNewest ids := by
      rw [newer_append_fromNewest]
      exact (h id).2 (hfound id hid)
    rw [hnil, List.append_nil] at horder
    exact not_mem_of_mem_newer horder hid
  · rintro rfl
    exact (cut_eq (List.append_nil r.order).symm (by simp) (by simp)).2

theorem merged_of_replace (h : r.Whole) (hreplace : r.replace ids result = .ok roster) :
    r.Merged ids result roster := by
  obtain ⟨hfound, horder, -⟩ := replace_eq_ok_iff.1 hreplace
  have hget := get?_replace hreplace
  refine ⟨?_, ⟨r.newer ids, r.fromNewest ids, ?_, ?_, ?_, ?_, horder⟩, ?_, ?_⟩
  · intro id hid hne
    have hnone : roster.get? id = none := by rw [hget, if_neg hne, if_pos hid]
    refine ⟨?_, hnone⟩
    rw [whole_replace h hreplace id, hnone]
    simp
  · exact (newer_append_fromNewest r ids).symm
  · intro id hid
    exact not_mem_of_mem_newer hid
  · intro newest hnewest
    have hhead := List.head?_dropWhile_not (fun id => decide (id ∉ ids)) r.order
    rw [← fromNewest, hnewest] at hhead
    simpa using hhead
  · exact fromNewest_eq_nil_iff h hfound
  · rw [hget, if_pos rfl]
  · intro id hid hne
    rw [hget, if_neg hne, if_neg hid]

/-- While each number stands once in the order, those of a merge take as many places as they are. -/
theorem places_eq_length_dedup (h : r.Whole) (horder : r.order.Nodup)
    (hfound : ∀ id ∈ ids, (r.get? id).isSome) : r.places ids = ids.dedup.length := by
  have hplaces : r.places ids = r.places ids.dedup := by simp [places]
  rw [hplaces]
  refine Nat.le_antisymm (places_le_length horder) ?_
  refine length_le_places h (List.nodup_dedup ids) ?_
  intro id hid
  exact hfound id (List.mem_dedup.1 hid)

theorem nodup_edit (horder : r.order.Nodup) {e : Edit}
    (hnew : (r.edit e).2 = .ok () → e.added.id ∉ r.order) : (r.edit e).1.order.Nodup := by
  cases e with
  | prepend c => exact nodup_prepend horder (hnew rfl)
  | append c =>
    have hnot : c.id ∉ r.order := hnew rfl
    have hperm : (r.append c).order.Perm (c.id :: r.order) :=
      List.perm_append_singleton c.id r.order
    exact hperm.nodup_iff.2 (List.nodup_cons.2 ⟨hnot, horder⟩)
  | replace members result =>
    cases hanswer : (r.edit (.replace members result)).2 with
    | error e =>
      rw [(edit_replace_eq_error hanswer).2]
      exact horder
    | ok u => exact nodup_replace horder (hnew hanswer) (edit_replace_eq_ok hanswer)

theorem nodup_edited (horder : r.order.Nodup) {edits : List Edit} (hfresh : r.Fresh edits) :
    (r.edited edits).order.Nodup := by
  induction edits generalizing r with
  | nil => exact horder
  | cons e rest ih => exact ih (nodup_edit horder hfresh.1) hfresh.2

/-- An edit puts in one component, and takes out as many as it names. -/
theorem length_edit (h : r.Whole) (horder : r.order.Nodup) {e : Edit}
    (hanswer : (r.edit e).2 = .ok ()) :
    (r.edit e).1.length + e.removed.dedup.length = r.length + 1 := by
  cases e with
  | prepend c => simp [edit, Edit.removed, length]
  | append c => simp [edit, Edit.removed, length]
  | replace members result =>
    have hreplace := edit_replace_eq_ok hanswer
    rw [Edit.removed, ← places_eq_length_dedup h horder (replace_eq_ok_iff.1 hreplace).1]
    exact length_replace hreplace

/-- After any edits, order and table of a roster hold the same numbers, and components are shown in
that order. A merge is refused, and changes nothing, just where a member is listed under no number.
Numbers that were fresh stay distinct. -/
theorem consistent_after_edits (edits : List Edit) :
    let r := ({} : Roster).edited edits
    r.Consistent ∧ r.snapshot = .ok r.newestFirst ∧ r.newestFirst.map Component.id = r.order ∧
    (∀ members result,
      let answer := r.edit (.replace members result)
      ((∃ e, answer.2 = .error e) ↔ ∃ id ∈ members, id ∉ r.order) ∧
      (∀ e, answer.2 = .error e → answer.1 = r) ∧
      (answer.2 = .ok () → r.Merged members result answer.1)) ∧
    (({} : Roster).Fresh edits → r.order.Nodup ∧ ∀ e, (r.edit e).2 = .ok () →
      (r.edit e).1.length + e.removed.dedup.length = r.length + 1) := by
  intro r
  have h : r.Consistent := consistent_edited consistent_nil edits
  obtain ⟨hsnapshot, hids⟩ := snapshot_spec h
  refine ⟨h, hsnapshot, hids, ?_, ?_⟩
  · intro members result answer
    refine ⟨refused_iff h, ?_, ?_⟩
    · intro e he
      exact (edit_replace_eq_error he).2
    · intro hok
      exact merged_of_replace h.whole (edit_replace_eq_ok hok)
  · intro hfresh
    have horder : r.order.Nodup := nodup_edited List.nodup_nil hfresh
    refine ⟨horder, ?_⟩
    intro e he
    exact length_edit h.whole horder he

/-- Components are put in at both ends, two of them merged, named three times, and a merge of
unknown ones refused. Of the two that are left a merge leaves one. -/
theorem consistent_after_refused_merge :
    let c (serial : Nat) : Component := { serial, range := .single serial, size := 10 }
    let edits : List Edit := [.prepend (c 1), .prepend (c 2), .append (c 0),
      .replace [1, 2, 1] (c 3), .replace [7] (c 3)]
    let r := ({} : Roster).edited edits
    ({} : Roster).Fresh edits ∧ r.order = [3, 0] ∧ r.order.Nodup ∧
      (r.edit (.replace [0, 3, 0] (c 3))).1.length = 1 := by
  intro c edits r
  have hfresh : ({} : Roster).Fresh edits := by
    simp only [edits, Fresh]
    decide
  have h := (consistent_after_edits edits).2.2.2.2 hfresh
  have hlength := h.2 (.replace [0, 3, 0] (c 3)) rfl
  refine ⟨hfresh, rfl, h.1, ?_⟩
  exact Nat.add_right_cancel (m := 2) hlength

end Roster

end Strata
