import Strata.Proofs.Codec.Rewriting

/-!
# Points that are read, and points that are written

A reader of points takes the lengths of the coordinates from the kinds of the lower ones, and shows
each of them as the upper one again. A tuple is written as a point only where each field has the
length of its own kind. When the kinds are taken, nobody asks whether both coordinates of a
dimension are of one length. Where they are, every tuple that is read can be written, and is read
back; where they are not, none can.
-/

namespace Strata

namespace PointBox

variable {box : PointBox} {stored tuple : Tuple}

/-- The stored fields as they are shown: the coordinates, and all of them again with the values. -/
def shown (box : PointBox) (stored : Tuple) : Tuple := stored.take box.dimensions ++ stored

theorem length_shown (h : stored.length = box.dimensions + box.values) :
    (box.shown stored).length = box.fields := by
  rw [shown, List.length_append, List.length_take, fields, keyFields]
  omega

/-- What is shown is stored as what it was. -/
theorem stored_shown (h : stored.length = box.dimensions + box.values) :
    box.stored (box.shown stored) = stored := by
  have htake : (stored.take box.dimensions).length = box.dimensions := by
    rw [List.length_take]
    omega
  have hdrop : (stored.take box.dimensions ++ stored).drop box.keyFields =
      stored.drop box.dimensions := by
    rw [List.drop_append, List.drop_of_length_le (by rw [htake, keyFields]; omega), htake,
      List.nil_append]
    congr 1
    rw [keyFields]
    omega
  rw [stored_eq (length_shown h), shown, hdrop, List.take_append_of_le_length (by omega),
    List.take_take, Nat.min_self, List.take_append_drop]

/-- What is shown is a point. -/
theorem getElem?_shown (h : stored.length = box.dimensions + box.values) :
    ∀ i < box.dimensions, (box.shown stored)[i]? = (box.shown stored)[box.dimensions + i]? := by
  intro i hi
  have htake : (stored.take box.dimensions).length = box.dimensions := by
    rw [List.length_take]
    omega
  rw [shown, List.getElem?_append_left (by omega), List.getElem?_append_right (by omega), htake,
    Nat.add_sub_cancel_left, List.getElem?_take_of_lt hi]

theorem shows_shown (h : stored.length = box.dimensions + box.values) :
    (Shape.pointBox box).Shows stored (box.shown stored) := by
  have hshows := (shows_stored_iff (length_shown h)).2 (getElem?_shown h)
  rwa [stored_shown h] at hshows

/-- A field that is shown has the length of the kind that the stored one was declared with. -/
theorem length_of_shown (hfits : Stored.Fits box.storedKinds stored) {i length : Nat}
    (hi : i < box.fields) (hkind : (Shape.pointBox box).kindAt? i = some (.fixed length)) :
    (box.shown stored)[i]?.map List.length = some length := by
  have hcount : stored.length = box.dimensions + box.values := by
    rw [← hfits.length_eq]
    exact (Shape.Of.pointBox box).length_storedKinds
  obtain ⟨j, hj, -, hdeclared⟩ := (Shape.Of.pointBox box).exists_stored hi
  obtain ⟨j', hj', -, hfield⟩ :=
    (shows_shown hcount).field i (by rw [length_shown hcount]; exact hi)
  obtain rfl := Option.some.inj (hj.symm.trans hj')
  rw [← hfield]
  exact (Stored.fits_iff hfits.length_eq).1 hfits j length (hdeclared.trans hkind)

/-- A reader of points is placed on stored fields that fit their kinds, and shows them. -/
theorem tuple_of_reset {r placed : Reader} {buf : Bytes} {offset : Nat}
    (hshape : r.shape = .pointBox box) (hreset : r.reset buf offset = (placed, .ok ())) :
    ∃ stored, Stored.Fits box.storedKinds stored ∧
      stored.length = box.dimensions + box.values ∧ placed.tuple = .ok (box.shown stored) := by
  have hof : r.shape.Of (.pointBox box) := hshape ▸ Shape.of_shape (.pointBox box)
  obtain ⟨stored, hplaced, -, -, hon, hcount, -, hform⟩ := Reader.placed_of_reset hof hreset
  rw [hshape] at hplaced hcount hform
  refine ⟨stored, hform.slots.fits, hcount, Reader.tuple_of_on hon ?_⟩
  rw [hplaced]
  exact shows_shown hcount

/-- Of a point with all fields, only the lengths are left to be checked. -/
theorem check_of_point (hlength : tuple.length = box.fields)
    (hpoint : ∀ i < box.dimensions, tuple[i]? = tuple[box.dimensions + i]?) :
    box.check tuple = Stored.checkLengths 0 box.kinds tuple := by
  cases hcheck : Stored.checkLengths 0 box.kinds tuple with
  | ok u =>
    have hkinds : box.kinds.length = tuple.length := box.length_kinds.trans hlength.symm
    exact check_eq_ok_iff.2 ⟨hlength, (Stored.checkLengths_eq_ok_iff 0 hkinds).1 hcheck, hpoint⟩
  | error e => simp [check, hlength, hcheck, bind, Except.bind]

/-- Both coordinates of each dimension are declared of one kind. -/
def Paired (kinds : List FieldKind) (dimensions : Nat) : Prop :=
  ∀ i < dimensions, kinds[i]? = kinds[i + dimensions]?

/-- A coordinate is of a fixed kind. -/
theorem exists_fixed (box : PointBox) {i : Nat} (hi : i < box.keyFields) :
    ∃ length, box.kinds[i]? = some (.fixed length) := by
  have hlt : i < (box.kinds.take box.keyFields).length := by
    rw [List.length_take, box.length_kinds]
    rw [keyFields] at hi ⊢
    omega
  have hfixed := box.fixed_keys _ (List.getElem_mem hlt)
  rw [← List.getElem?_take_of_lt hi, List.getElem?_eq_getElem hlt]
  cases hkind : (box.kinds.take box.keyFields)[i] with
  | fixed length => exact ⟨length, rfl⟩
  | varying =>
    rw [hkind] at hfixed
    contradiction

/-- An upper coordinate is shown under the kind of the lower one. -/
theorem kindAt?_upper {i : Nat} (hi : i < box.dimensions) :
    (Shape.pointBox box).kindAt? (i + box.dimensions) = box.kinds[i]? := by
  rw [Shape.kindAt?, if_pos (by rw [keyFields]; omega), Nat.add_mod_right, Nat.mod_eq_of_lt hi]

/-- Every field is shown under its own kind, or is an upper coordinate. -/
theorem kindAt?_cases (box : PointBox) (i : Nat) :
    (Shape.pointBox box).kindAt? i = box.kinds[i]? ∨
      ∃ d < box.dimensions, i = d + box.dimensions := by
  by_cases hupper : box.dimensions ≤ i ∧ i < box.keyFields
  · refine .inr ⟨i - box.dimensions, ?_, by omega⟩
    rw [keyFields] at hupper
    omega
  · rw [Shape.kindAt?, if_neg hupper]
    exact .inl rfl

/-- What is shown can be written just where coordinates are declared in pairs. -/
theorem check_shown_eq_ok_iff (hfits : Stored.Fits box.storedKinds stored)
    (hcount : stored.length = box.dimensions + box.values) :
    box.check (box.shown stored) = .ok () ↔ Paired box.kinds box.dimensions := by
  have hkinds : box.kinds.length = box.fields := box.length_kinds
  constructor
  · intro hcheck i hi
    obtain ⟨lower, hlower⟩ := box.exists_fixed (i := i) (by rw [keyFields]; omega)
    obtain ⟨upper, hupper⟩ :=
      box.exists_fixed (i := i + box.dimensions) (by rw [keyFields]; omega)
    have hown := (check_eq_ok_iff_fields.1 hcheck).2.1 _ _ hupper
    have hshown := length_of_shown hfits (i := i + box.dimensions)
      (by rw [fields, keyFields]; omega) ((kindAt?_upper hi).trans hlower)
    rw [hlower, hupper, Option.some.inj (hown.symm.trans hshown)]
  · intro hpaired
    refine check_eq_ok_iff_fields.2 ⟨length_shown hcount, fun i length hkind => ?_, ?_⟩
    · obtain ⟨hi, -⟩ := List.getElem?_eq_some_iff.1 hkind
      rcases box.kindAt?_cases i with hsame | ⟨d, hd, rfl⟩
      · exact length_of_shown hfits (hkinds ▸ hi) (hsame.trans hkind)
      · rw [← hpaired d hd] at hkind
        exact length_of_shown hfits (hkinds ▸ hi) ((kindAt?_upper hd).trans hkind)
    · intro i hi
      rw [Nat.add_comm i]
      exact getElem?_shown hcount i hi

/-- Where they are not, what is shown is turned away for an upper coordinate of the length of the
lower one. -/
theorem exists_of_not_paired (hfits : Stored.Fits box.storedKinds stored)
    (hcount : stored.length = box.dimensions + box.values)
    (hpaired : ¬ Paired box.kinds box.dimensions) :
    ∃ i lower upper, i < box.dimensions ∧ box.kinds[i]? = some (.fixed lower) ∧
      box.kinds[i + box.dimensions]? = some (.fixed upper) ∧ lower ≠ upper ∧
      box.check (box.shown stored) = .error (.fieldLength (i + box.dimensions) upper lower) := by
  have hkinds : box.kinds.length = box.fields := box.length_kinds
  have hcheck := check_of_point (length_shown hcount) (getElem?_shown hcount)
  cases hlengths : Stored.checkLengths 0 box.kinds (box.shown stored) with
  | ok u =>
    rw [hlengths] at hcheck
    exact absurd ((check_shown_eq_ok_iff hfits hcount).1 hcheck) hpaired
  | error e =>
    obtain ⟨j, upper, f, hupper, hfield, hne, rfl⟩ := Stored.exists_of_checkLengths hlengths
    obtain ⟨hj, -⟩ := List.getElem?_eq_some_iff.1 hupper
    have hshown := @length_of_shown box stored hfits j
    rw [hfield, Option.map_some, ← hkinds] at hshown
    rcases box.kindAt?_cases j with hsame | ⟨i, hi, rfl⟩
    · exact absurd (Option.some.inj (hshown hj (hsame.trans hupper))) hne
    · obtain ⟨lower, hlower⟩ := box.exists_fixed (i := i) (by rw [keyFields]; omega)
      obtain rfl := Option.some.inj (hshown hj ((kindAt?_upper hi).trans hlower))
      rw [hlengths, Nat.zero_add] at hcheck
      exact ⟨i, f.length, upper, hi, hlower, hupper, hne, hcheck⟩

/-- Where both coordinates of each dimension are declared alike, a tuple read from any bytes is
written, and is read back from what is written. Where they are not, it is turned away for an upper
coordinate, which has the length of the lower one. -/
theorem rewrite_point_of_reset {kinds : List FieldKind} {keyFields valueFields : Nat}
    (hbox : ofCounts kinds keyFields valueFields = .ok box) {r placed : Reader} {buf : Bytes}
    {offset : Nat} (hshape : r.shape = .pointBox box)
    (hreset : r.reset buf offset = (placed, .ok ())) :
    ∃ (tuple : Tuple) (needed : Nat), placed.tuple = .ok tuple ∧
      tuple.length = keyFields + valueFields ∧ box.required tuple = .ok needed ∧
      (Paired kinds (keyFields / 2) → ∃ bs : Bytes, bs.length = needed ∧
        (∀ out start, start + needed ≤ out.length → box.write tuple out start =
          (out.take start ++ bs ++ out.drop (start + needed), .ok needed)) ∧
        ∀ r' : Reader, r'.shape = .pointBox box → r'.Takes bs tuple) ∧
      (¬ Paired kinds (keyFields / 2) → ∃ i lower upper, i < keyFields / 2 ∧
        kinds[i]? = some (.fixed lower) ∧ kinds[i + keyFields / 2]? = some (.fixed upper) ∧
        lower ≠ upper ∧ ∀ out start, box.write tuple out start =
          (out, .error (.error (.fieldLength (i + keyFields / 2) upper lower)))) := by
  obtain ⟨rfl, hdimensions, hkeys, hvalues⟩ := counts_of_ofCounts hbox
  obtain ⟨stored, hfits, hcount, htuple⟩ := tuple_of_reset hshape hreset
  have hlength := length_shown hcount
  rw [← hdimensions]
  refine ⟨box.shown stored, _, htuple, ?_, required_eq hlength, fun hpaired => ?_,
    fun hpaired => ?_⟩
  · rw [hlength, fields, hkeys, hvalues]
  · have hcheck := (check_shown_eq_ok_iff hfits hcount).2 hpaired
    refine ⟨box.encode (box.shown stored), rfl, fun out start hroom => ?_, fun r' hr' =>
      takes_stored hcheck hr'⟩
    simp only [write, hcheck]
    exact Stored.put_of_le hroom
  · obtain ⟨i, lower, upper, hi, hlower, hupper, hne, hcheck⟩ :=
      exists_of_not_paired hfits hcount hpaired
    refine ⟨i, lower, upper, hi, hlower, hupper, hne, fun out start => ?_⟩
    simp only [write, hcheck]

/-- A point read from a slot of two groups behind a bitmap that is not zero is written in one byte
less. One whose coordinates were declared of two bytes and of one is read, and cannot be written. -/
theorem rewrite_of_unequal_coordinates :
    let kinds : List FieldKind := [.fixed 1, .fixed 2, .fixed 1, .fixed 2, .varying]
    let tuple : Tuple := [[1], [2, 3], [1], [2, 3], [9]]
    (∃ box placed, ofCounts kinds 4 1 = .ok box ∧
      (Codec.pointBox box).reader.reset [7, 255, 128, 1, 1, 2, 3, 9] 1 = (placed, .ok ()) ∧
      placed.tuple = .ok tuple ∧
      box.write tuple (Bytes.zeros 6) 0 = ([0, 1, 1, 2, 3, 9], .ok 6) ∧
      (Codec.pointBox box).reader.Takes [0, 1, 1, 2, 3, 9] tuple) ∧
    ∃ box placed, ofCounts [.fixed 2, .fixed 1] 2 0 = .ok box ∧
      (Codec.pointBox box).reader.reset [0, 170, 187] 0 = (placed, .ok ()) ∧
      placed.tuple = .ok [[170, 187], [170, 187]] ∧
      ∀ out start, box.write [[170, 187], [170, 187]] out start =
        (out, .error (.error (.fieldLength 1 1 2))) := by
  intro kinds tuple
  constructor
  · let box : PointBox :=
      { dimensions := 2, values := 1, kinds := kinds, dimensions_pos := by decide,
        length_kinds := by decide, fixed_keys := by decide }
    let placed := ((Codec.pointBox box).reader.reset [7, 255, 128, 1, 1, 2, 3, 9] 1).1
    have hbox : ofCounts kinds 4 1 = .ok box := by cbv
    have hreset : (Codec.pointBox box).reader.reset [7, 255, 128, 1, 1, 2, 3, 9] 1 =
        (placed, .ok ()) := Prod.ext rfl (by decide)
    have hshown : placed.tuple = .ok tuple := by decide
    have hsized : box.required tuple = .ok 6 := by cbv
    have hwrite : box.write tuple (Bytes.zeros 6) 0 = ([0, 1, 1, 2, 3, 9], .ok 6) := by cbv
    obtain ⟨read, needed, htuple, -, hneeded, hpaired, -⟩ :=
      rewrite_point_of_reset hbox rfl hreset
    obtain rfl : tuple = read := Except.ok.inj (hshown.symm.trans htuple)
    obtain rfl : 6 = needed := Except.ok.inj (hsized.symm.trans hneeded)
    obtain ⟨bs, -, hwritten, htakes⟩ := hpaired (by unfold Paired; decide)
    have hbytes := (Prod.mk.inj ((hwritten (Bytes.zeros 6) 0 (by decide)).symm.trans hwrite)).1
    obtain rfl : bs = [0, 1, 1, 2, 3, 9] := by simpa [Bytes.zeros] using hbytes
    exact ⟨box, placed, hbox, hreset, hshown, hwrite, htakes _ rfl⟩
  · let box : PointBox :=
      { dimensions := 1, values := 0, kinds := [.fixed 2, .fixed 1], dimensions_pos := by decide,
        length_kinds := by decide, fixed_keys := by decide }
    let placed := ((Codec.pointBox box).reader.reset [0, 170, 187] 0).1
    have hbox : ofCounts [.fixed 2, .fixed 1] 2 0 = .ok box := by cbv
    have hreset : (Codec.pointBox box).reader.reset [0, 170, 187] 0 = (placed, .ok ()) :=
      Prod.ext rfl (by decide)
    have hshown : placed.tuple = .ok [[170, 187], [170, 187]] := by decide
    obtain ⟨read, needed, htuple, -, -, -, hunpaired⟩ := rewrite_point_of_reset hbox rfl hreset
    obtain rfl : [[170, 187], [170, 187]] = read := Except.ok.inj (hshown.symm.trans htuple)
    obtain ⟨i, lower, upper, hi, hlower, hupper, -, hwrite⟩ :=
      hunpaired (by unfold Paired; decide)
    obtain rfl : i = 0 := by omega
    obtain rfl : 2 = lower := by simpa using hlower
    obtain rfl : 1 = upper := by simpa using hupper
    exact ⟨box, placed, hbox, hreset, hshown, hwrite⟩

end PointBox

end Strata
