import Strata.Proofs.Component.File
import Strata.Proofs.Component.Roster
import Strata.Store.Merging

/-!
# What components hold

A record of a component file says what was written to it. As long as the files of the components
listed are those of their records, a search and a scan of the index find what the records hold:
under each key the tuple of the newest record that has one.
-/

namespace Strata

/-- A component file that was written. -/
structure Record where
  component : Component
  file : Bytes
  /-- The tuples it was written with, by ascending key. -/
  tuples : List Tuple
  /-- The components it was merged from. There are none where a flush wrote it. -/
  members : List Component := []

namespace Record

/-- The name of the file. -/
def name (a : Record) : String := FileName.ofComponent a.component.id a.component.range

/-- The file is in a directory. -/
def LiesIn (a : Record) (d : Directory) : Prop := d.find? a.name = some a.file

/-- The file is that of the component, and can be read as the tuples it was written with. -/
structure Sound (r : Reading) (a : Record) : Prop where
  file : a.component.HasFile r a.file a.tuples
  admits : r.Admits a.tuples

/-- Components of different counts have files of different names. -/
theorem serial_eq_of_name_eq {a b : Record} (ha : a.component.serial < Numeral.word)
    (hb : b.component.serial < Numeral.word) (h : a.name = b.name) :
    a.component.serial = b.component.serial := by
  have hid := (FileName.ofComponent_eq_iff.1 h).1
  rwa [Component.id_of_lt ha, Component.id_of_lt hb] at hid

end Record

namespace Reading

variable (r : Reading)

/-- The tuple a list of tuples has under a key. -/
def find? (tuples : List Tuple) (key : Bytes) : Option Tuple :=
  Keyed.find? (Tuple.keyed r.keyFields tuples) key

/-- The tuple of the first record that has one under a key, the newest record coming first. -/
def newest (records : List Record) (key : Bytes) : Option Tuple :=
  records.findSome? fun a => r.find? a.tuples key

/-- Tuples by key with those of records put over them, the oldest record coming first. -/
def overlay (found : Keyed Tuple) (records : List Record) : Keyed Tuple :=
  records.foldl (fun found a => Keyed.insertAll found (Tuple.keyed r.keyFields a.tuples)) found

/-- Every tuple stands under its own key. -/
def Labels (m : Keyed Tuple) : Prop := ∀ e ∈ m, e.1 = r.keyOf e.2

variable {r}

@[simp] theorem newest_nil (key : Bytes) : r.newest [] key = none := rfl

theorem newest_cons (a : Record) (records : List Record) (key : Bytes) :
    r.newest (a :: records) key = (r.find? a.tuples key).or (r.newest records key) := by
  rw [newest, List.findSome?_cons]
  cases r.find? a.tuples key <;> rfl

theorem newest_append (records others : List Record) (key : Bytes) :
    r.newest (records ++ others) key = (r.newest records key).or (r.newest others key) := by
  induction records with
  | nil => rfl
  | cons a records ih => rw [List.cons_append, newest_cons, newest_cons, ih, Option.or_assoc]

/-- The newest tuples of records are the same where one that has the newest tuples of some that
stand together has taken their place. -/
theorem newest_replace {front parts back : List Record} {a : Record}
    (hyields : ∀ key, r.find? a.tuples key = r.newest parts key) (key : Bytes) :
    r.newest (front ++ [a] ++ back) key = r.newest (front ++ parts ++ back) key := by
  simp only [newest_append, newest_cons, newest_nil, Option.or_none, hyields]

theorem newest_congr {records others : List Record}
    (h : records.map Record.tuples = others.map Record.tuples) (key : Bytes) :
    r.newest records key = r.newest others key := by
  have hmap : ∀ records : List Record, r.newest records key =
      (records.map Record.tuples).findSome? fun tuples => r.find? tuples key := fun records => by
    rw [newest, List.findSome?_map]
    rfl
  rw [hmap, hmap, h]

theorem labels_nil : r.Labels [] := by simp [Labels]

theorem labels_keyed (tuples : List Tuple) : r.Labels (Tuple.keyed r.keyFields tuples) := by
  rintro ⟨key, t⟩ he
  exact (Tuple.mem_keyed_iff.1 he).2.symm

theorem mem_insertAll {m : Keyed Tuple} {entries : List (Bytes × Tuple)} {e : Bytes × Tuple}
    (h : e ∈ Keyed.insertAll m entries) : e ∈ entries ∨ e ∈ m := by
  induction entries generalizing m with
  | nil => exact .inr h
  | cons first rest ih =>
    rcases ih h with hrest | hfirst
    · exact .inl (List.mem_cons_of_mem _ hrest)
    · rcases Keyed.mem_insert hfirst with rfl | hm
      · exact .inl List.mem_cons_self
      · exact .inr hm

theorem labels_insertAll {m : Keyed Tuple} {entries : List (Bytes × Tuple)} (h : r.Labels m)
    (hentries : r.Labels entries) : r.Labels (Keyed.insertAll m entries) := by
  intro e he
  exact (mem_insertAll he).elim (hentries e) (h e)

theorem mem_overlay {found : Keyed Tuple} {records : List Record} {e : Bytes × Tuple}
    (h : e ∈ r.overlay found records) :
    e ∈ found ∨ ∃ a ∈ records, e ∈ Tuple.keyed r.keyFields a.tuples := by
  induction records generalizing found with
  | nil => exact .inl h
  | cons a records ih =>
    rcases ih h with hfirst | ⟨b, hb, hin⟩
    · exact (mem_insertAll hfirst).symm.imp id fun hin => ⟨a, List.mem_cons_self, hin⟩
    · exact .inr ⟨b, List.mem_cons_of_mem _ hb, hin⟩

theorem labels_overlay {found : Keyed Tuple} (h : r.Labels found) (records : List Record) :
    r.Labels (r.overlay found records) := by
  intro e he
  rcases mem_overlay he with hin | ⟨a, -, hin⟩
  · exact h e hin
  · exact labels_keyed a.tuples e hin

theorem ascending_overlay {found : Keyed Tuple} (h : Keyed.Ascending found)
    (records : List Record) :
    Keyed.Ascending (r.overlay found records) := by
  induction records generalizing found with
  | nil => exact h
  | cons a records ih => exact ih (Keyed.ascending_insertAll h _)

/-- Of records put one over the other, the newest one counts. -/
theorem find?_overlay (found : Keyed Tuple) {records : List Record}
    (hrecords : ∀ a ∈ records, Tuple.Ascending r.keyFields a.tuples) (key : Bytes) :
    Keyed.find? (r.overlay found records) key =
      (r.newest records.reverse key).or (Keyed.find? found key) := by
  induction records generalizing found with
  | nil => rfl
  | cons a records ih =>
    rw [List.forall_mem_cons] at hrecords
    have hlast : Keyed.find? (Tuple.keyed r.keyFields a.tuples).reverse key =
        r.find? a.tuples key :=
      Keyed.find?_reverse (Tuple.ascending_keyed_iff.2 hrecords.1) key
    have hstep := ih (Keyed.insertAll found (Tuple.keyed r.keyFields a.tuples)) hrecords.2
    rw [Keyed.find?_insertAll, hlast, ← Option.or_assoc] at hstep
    rw [List.reverse_cons, newest_append, newest_cons, newest_nil, Option.or_none]
    exact hstep

/-- Tuples that stand under their own keys are determined by the list of them. -/
theorem keyed_values {m : Keyed Tuple} (h : r.Labels m) :
    Tuple.keyed r.keyFields (Keyed.values m) = m := by
  rw [Tuple.keyed, Keyed.values, List.map_map]
  refine (List.map_congr_left fun e he => ?_).trans (List.map_id m)
  exact Prod.ext (h e he).symm rfl

end Reading

namespace Store

variable {s : Store} {r : Reading} {a : Record}

theorem openComponent_of_liesIn (hformat : s.format.reading = r) (ha : a.Sound r)
    (hlies : a.LiesIn s.files) :
    ∃ archive blocks, s.openComponent a.component = .ok (archive, a.file) ∧
      archive.keyFields = r.keyFields ∧ archive.Serves a.file blocks ∧
      blocks.flatten = a.tuples := by
  subst hformat
  obtain ⟨archive, blocks, hopen, -, hkeyFields, -, -, hserves, hflatten⟩ := ha.file.archive
  exact ⟨archive, blocks,
    openComponent_eq_ok ha.file.name (Directory.read_eq_ok_iff.2 hlies) (hopen _), hkeyFields,
    hserves, hflatten⟩

/-- A component is read as the tuples its file was written with. -/
theorem tuplesOf_eq (hformat : s.format.reading = r) (ha : a.Sound r) (hlies : a.LiesIn s.files) :
    s.tuplesOf a.component = .ok a.tuples := by
  obtain ⟨archive, blocks, hopen, -, hserves, hflatten⟩ :=
    openComponent_of_liesIn hformat ha hlies
  rw [tuplesOf, hopen, ← hflatten]
  exact Archive.tuples_of_serves hserves

theorem findIn_eq (hformat : s.format.reading = r) (ha : a.Sound r) (hlies : a.LiesIn s.files)
    (key : Bytes) : s.findIn a.component key = .ok (r.find? a.tuples key) := by
  obtain ⟨archive, blocks, hopen, hkeyFields, hserves, hflatten⟩ :=
    openComponent_of_liesIn hformat ha hlies
  have hfind := Archive.find?_of_serves hserves key
  rw [hflatten, hkeyFields] at hfind
  rw [findIn, hopen]
  exact hfind

/-- A component that is passed over for its bloom filter has nothing under the key. -/
theorem find?_eq_none_of_mayContain (hformat : s.format.reading = r) (ha : a.Sound r) {key : Bytes}
    (h : a.component.mayContain s.format key = false) : r.find? a.tuples key = none := by
  refine Tuple.find?_keyed_eq_none fun t ht hkey => ?_
  have hadmits := ha.file.admits t ht s.format (congrArg Reading.fingerprint hformat)
  rw [Reading.keyOf, hkey, h] at hadmits
  contradiction

/-- A search of components finds what the newest record has that has the key. -/
theorem findAmong_eq (hformat : s.format.reading = r) {records : List Record}
    (hrecords : ∀ a ∈ records, a.Sound r ∧ a.LiesIn s.files) (key : Bytes) :
    s.findAmong key (records.map Record.component) = .ok (r.newest records key) := by
  induction records with
  | nil => rfl
  | cons a records ih =>
    rw [List.forall_mem_cons] at hrecords
    obtain ⟨⟨hsound, hlies⟩, hrest⟩ := hrecords
    rw [List.map_cons, findAmong, Reading.newest_cons]
    split
    · rw [findIn_eq hformat hsound hlies, Outcome.bind_eq_ok_iff]
      refine ⟨_, rfl, ?_⟩
      cases r.find? a.tuples key with
      | none => exact ih hrest
      | some t => rfl
    · rename_i hmay
      rw [find?_eq_none_of_mayContain hformat hsound (eq_false_of_ne_true hmay)]
      exact ih hrest

/-- Components are read one over the other. -/
theorem gather_eq (hformat : s.format.reading = r) {records : List Record}
    (hrecords : ∀ a ∈ records, a.Sound r ∧ a.LiesIn s.files) (found : Keyed Tuple) :
    s.gather found (records.map Record.component) = .ok (r.overlay found records) := by
  induction records generalizing found with
  | nil => rfl
  | cons a records ih =>
    rw [List.forall_mem_cons] at hrecords
    obtain ⟨⟨hsound, hlies⟩, hrest⟩ := hrecords
    rw [List.map_cons, gather, tuplesOf_eq hformat hsound hlies, Outcome.bind_eq_ok_iff]
    refine ⟨_, rfl, ?_⟩
    have hkeyed : s.keyed a.tuples = Tuple.keyed r.keyFields a.tuples := by
      subst hformat
      rfl
    rw [hkeyed]
    exact ih hrest _

/-- What a merge reads of its members, given newest first. -/
theorem merged_eq (hformat : s.format.reading = r) {parts : List Record}
    (hparts : ∀ a ∈ parts, a.Sound r ∧ a.LiesIn s.files) :
    s.merged (parts.map Record.component) = .ok (Keyed.values (r.overlay [] parts.reverse)) := by
  rw [merged, ← List.map_reverse, gather_eq hformat fun a ha => hparts a (List.mem_reverse.1 ha)]
  rfl

/-- A merge reads the tuples of all its members that are newest for their key. -/
theorem merged_spec (hformat : s.format.reading = r) {parts : List Record}
    (hparts : ∀ a ∈ parts, a.Sound r ∧ a.LiesIn s.files) (hne : parts ≠ []) :
    ∃ tuples, s.merged (parts.map Record.component) = .ok tuples ∧ r.Admits tuples ∧
      ∀ key, r.find? tuples key = r.newest parts key := by
  have hreverse : ∀ a ∈ parts.reverse, a.Sound r ∧ a.LiesIn s.files := fun a ha =>
    hparts a (List.mem_reverse.1 ha)
  have hascending : Keyed.Ascending (r.overlay [] parts.reverse) :=
    Reading.ascending_overlay List.Pairwise.nil _
  have hkeyed :=
    Reading.keyed_values (Reading.labels_overlay (r := r) Reading.labels_nil parts.reverse)
  have hmem : ∀ t ∈ Keyed.values (r.overlay [] parts.reverse), ∃ a ∈ parts, t ∈ a.tuples := by
    intro t ht
    obtain ⟨e, he, rfl⟩ := List.mem_map.1 ht
    rcases Reading.mem_overlay he with hnil | ⟨a, ha, hin⟩
    · simp at hnil
    · exact ⟨a, List.mem_reverse.1 ha, (Tuple.mem_keyed_iff.1 (show (e.1, e.2) ∈ _ from hin)).1⟩
  refine ⟨_, merged_eq hformat hparts, ⟨?_, ?_, ?_, ?_⟩, fun key => ?_⟩
  · obtain ⟨a, ha⟩ := List.exists_mem_of_ne_nil parts hne
    exact (hparts a ha).1.admits.kinds
  · intro t ht
    obtain ⟨a, ha, hin⟩ := hmem t ht
    exact (hparts a ha).1.admits.kept t hin
  · rw [← Tuple.ascending_keyed_iff, hkeyed]
    exact hascending
  · intro t ht
    obtain ⟨a, ha, hin⟩ := hmem t ht
    exact (hparts a ha).1.admits.keys t hin
  · rw [Reading.find?, hkeyed,
      Reading.find?_overlay [] fun a ha => (hreverse a ha).1.admits.ascending,
      List.reverse_reverse]
    exact Option.or_none

/-- An index lists records, newest first, and their files are in place. -/
structure Presents (s : Store) (r : Reading) (listed : List Record) : Prop where
  format : s.format.reading = r
  lists : s.board.roster.Lists (listed.map Record.component)
  sound : ∀ a ∈ listed, a.Sound r ∧ a.LiesIn s.files

namespace Presents

variable {t : Store} {listed others : List Record}

/-- A search of all components finds the newest tuple under a key. -/
theorem findAmong_newestFirst (h : s.Presents r listed) (key : Bytes) :
    s.findAmong key s.board.roster.newestFirst = .ok (r.newest listed key) := by
  rw [Roster.newestFirst_of_lists h.lists]
  exact findAmong_eq h.format h.sound key

/-- A scan reads the components, the oldest first, and memory over them. -/
theorem scan_eq (h : s.Presents r listed) :
    s.scan =
      .ok (Keyed.values (Keyed.insertAll (r.overlay [] listed.reverse) s.memory.tuples)) := by
  rw [scan, Outcome.bind_eq_ok_iff]
  refine ⟨_, ?_, rfl⟩
  rw [Roster.oldestFirst, Roster.newestFirst_of_lists h.lists, ← List.map_reverse]
  exact gather_eq h.format (fun a ha => h.sound a (List.mem_reverse.1 ha)) []

/-- What records laid one over the other have under a key is the newest of them. -/
theorem find?_overlay (h : s.Presents r listed) (key : Bytes) :
    Keyed.find? (r.overlay [] listed.reverse) key = r.newest listed key := by
  rw [Reading.find?_overlay [] fun a ha => (h.sound a (List.mem_reverse.1 ha)).1.admits.ascending,
    List.reverse_reverse]
  exact Option.or_none

/-- Two indexes with the same memory whose components have the same newest tuples answer alike. -/
theorem lookup_scan_congr (hs : s.Presents r listed) (ht : t.Presents r others)
    (hformat : t.format = s.format) (hmemory : t.memory = s.memory)
    (hnewest : ∀ key, r.newest others key = r.newest listed key) :
    (∀ k, t.lookup k = s.lookup k) ∧ t.scan = s.scan := by
  constructor
  · intro k
    simp only [lookup, keyOf, hformat, hmemory, ht.findAmong_newestFirst, hs.findAmong_newestFirst,
      hnewest]
  · have hoverlay : r.overlay [] others.reverse = r.overlay [] listed.reverse := by
      refine Keyed.eq_of_find?_eq (Reading.ascending_overlay List.Pairwise.nil _)
        (Reading.ascending_overlay List.Pairwise.nil _) fun key => ?_
      rw [ht.find?_overlay, hs.find?_overlay, hnewest]
    rw [ht.scan_eq, hs.scan_eq, hoverlay, hmemory]

end Presents

end Store

end Strata
