import Strata.Proofs.Bytes
import Strata.Proofs.Codec.Acceptance
import Strata.Proofs.Varint

/-!
# The bytes written of a tuple

Both codecs write fields in one form: a bitmap of zeros, the shortest encoding of the length of
each varying field, the fields. Where a tuple cannot be written, or does not fit, the buffer stays
as it was; where it is written, only the bytes of the form change, and a reader placed on them shows
the fields again, whatever bytes surround them. The plain codec does so for any stretch of a tuple,
the codec of points for the half of the coordinates that stands for all of them.
-/

namespace Strata

namespace Stored

/-- The bytes a stored field takes beside the bitmap: those of its slot and its own. -/
def room (field : FieldKind × Bytes) : Nat :=
  (if field.1.isVarying then Varint.size field.2.length else 0) + field.2.length

/-- The form in which fields, each given with its kind, are stored. -/
structure Formed (fields : List (FieldKind × Bytes)) (bs : Bytes) : Prop where
  length : bs.length = (fields.length + 7) / 8 + (fields.map room).sum
  layout : bs = Bytes.zeros ((fields.length + 7) / 8) ++
    (fields.filter (·.1.isVarying)).flatMap (Varint.encode ·.2.length) ++ fields.flatMap (·.2)
  shortest : ∀ f ∈ fields, Varint.Shortest (Varint.encode f.2.length) f.2.length

theorem slots_eq_flatMap (kinds : List FieldKind) (fields : Tuple) :
    slots kinds fields =
      ((kinds.zip fields).filter (·.1.isVarying)).flatMap (Varint.encode ·.2.length) := by
  induction kinds generalizing fields with
  | nil => simp [slots]
  | cons kind kinds ih =>
    cases fields with
    | nil => cases kind <;> simp [slots]
    | cons f fields => cases kind <;> simp [slots, ih, FieldKind.isVarying]

/-- Field by field, the slots and the fields take the room of each. -/
theorem sum_room (kinds : List FieldKind) {fields : Tuple} (h : kinds.length = fields.length) :
    (slots kinds fields).length + Tuple.payload fields =
      ((kinds.zip fields).map room).sum := by
  induction kinds generalizing fields with
  | nil =>
    obtain rfl := List.length_eq_zero_iff.1 h.symm
    rfl
  | cons kind kinds ih =>
    cases fields with
    | nil => simp at h
    | cons f fields =>
      have hrest := ih (Nat.succ.inj h)
      cases kind with
      | fixed length =>
        simp only [slots, Tuple.payload_cons, List.zip_cons_cons, List.map_cons, List.sum_cons,
          room, FieldKind.isVarying, Bool.false_eq_true, if_false]
        omega
      | varying =>
        simp only [slots, Tuple.payload_cons, List.zip_cons_cons, List.map_cons, List.sum_cons,
          room, FieldKind.isVarying, if_true, List.length_append, Varint.length_encode]
        omega

/-- What is stored of fields is their form, where a word holds its length. -/
theorem formed_encode {kinds : List FieldKind} {fields : Tuple}
    (h : kinds.length = fields.length) (hroom : (encode kinds fields).length < Numeral.word) :
    Formed (kinds.zip fields) (encode kinds fields) := by
  have hlength := length_encode kinds fields
  have hzip : (kinds.zip fields).length = fields.length := by simp [h]
  have hsecond : (kinds.zip fields).map Prod.snd = fields :=
    List.map_snd_zip (Nat.le_of_eq h.symm)
  refine ⟨?_, ?_, fun f hf => Varint.shortest_encode ?_⟩
  · rw [hlength, ← sum_room kinds h, hzip, bitmapSize, Nat.add_assoc]
  · have hflat : (kinds.zip fields).flatMap (·.2) = fields.flatten := by
      rw [List.flatMap_def, hsecond]
    rw [encode, slots_eq_flatMap, hzip, bitmapSize, hflat]
  · have hle := (List.sublist_flatten_of_mem (List.of_mem_zip hf).2).length_le
    rw [Tuple.length_flatten_eq_payload] at hle
    omega

section put

variable {buf new : Bytes} {offset : Nat}

/-- A write succeeds just where there is room. The bytes written tell an offset behind the end of
the buffer, where there are any. -/
theorem put_eq_ok_iff (h : buf.length < offset → 0 < new.length) {n : Nat} :
    (put buf offset new).2 = .ok n ↔ new.length = n ∧ offset + n ≤ buf.length := by
  rw [put]
  split
  · simp only [reduceCtorEq, false_iff]
    omega
  · rw [if_neg (by omega)]
    simp only [Except.ok.injEq]
    omega

theorem put_fst_of_ok {n : Nat} (h : (put buf offset new).2 = .ok n) :
    (put buf offset new).1 = buf.take offset ++ new ++ buf.drop (offset + n) := by
  unfold put at h ⊢
  split at h
  · contradiction
  · split at h
    · contradiction
    · obtain rfl := Except.ok.inj h
      rename_i hroom hoffset
      rw [if_neg hroom, if_neg hoffset]
      rfl

/-- Where a write fails, it is for want of room. -/
theorem eq_bufferTooSmall_of_put (h : buf.length < offset → 0 < new.length) {e : Failure}
    (he : (put buf offset new).2 = .error e) :
    e = .error (.bufferTooSmall new.length (buf.length - offset)) := by
  unfold put at he
  split at he
  · exact (Except.error.inj he).symm
  · rw [if_neg (by omega)] at he
    contradiction

end put

/-- Fields to which there are as many kinds fit just where each field of fixed length has it. -/
theorem fits_iff {kinds : List FieldKind} {fields : Tuple} (h : kinds.length = fields.length) :
    Fits kinds fields ↔ ∀ (i length : Nat), kinds[i]? = some (.fixed length) →
      fields[i]?.map List.length = some length := by
  rw [Fits, List.forall₂_iff_get]
  constructor
  · rintro ⟨-, hall⟩ i length hkind
    obtain ⟨hi, heq⟩ := List.getElem?_eq_some_iff.1 hkind
    have hadmits := hall i hi (h ▸ hi)
    simp only [List.get_eq_getElem, heq, FieldKind.Admits] at hadmits
    rw [List.getElem?_eq_getElem (h ▸ hi), Option.map_some, hadmits]
  · refine fun hall => ⟨h, fun i hk hf => ?_⟩
    simp only [List.get_eq_getElem]
    cases hkind : kinds[i] with
    | varying => trivial
    | fixed length =>
      have hlength := hall i length (by rw [List.getElem?_eq_getElem hk, hkind])
      rw [List.getElem?_eq_getElem hf, Option.map_some] at hlength
      exact Option.some.inj hlength

end Stored

namespace Reader

/-- A reader takes bytes for a tuple, wherever they stand: placed on them it shows the fields of the
tuple, and tells how many the bytes are. -/
def Takes (r : Reader) (bs : Bytes) (tuple : Tuple) : Prop :=
  ∀ before after, (before ++ bs ++ after).length < Numeral.word →
    ∃ placed, r.reset (before ++ bs ++ after) before.length = (placed, .ok ()) ∧
      placed.fields = tuple.length ∧ (∀ i f, tuple[i]? = some f → placed.field i = .ok f) ∧
      placed.tupleSize = .ok bs.length

/-- What is stored of a tuple is taken for it. -/
theorem takes_encode {r : Reader} {stored tuple : Tuple}
    (hfits : Stored.Fits r.shape.storedKinds stored) (hshows : r.shape.Shows stored tuple) :
    r.Takes (Stored.encode r.shape.storedKinds stored) tuple := by
  intro before after hroom
  obtain ⟨placed, hreset, hshape, hon, hsize⟩ :=
    exists_on_of_reset hfits hshows.stored_length.symm before after hroom
  refine ⟨placed, hreset, ?_, fun i f hf => ?_, hsize⟩
  · rw [fields, hshape, hshows.length]
  · obtain ⟨hi, rfl⟩ := List.getElem?_eq_some_iff.1 hf
    exact field_of_on hon (hshape ▸ hshows) hi

/-- Bytes are taken for one tuple only. -/
theorem Takes.inj {r : Reader} {bs : Bytes} {tuple other : Tuple} (h : r.Takes bs tuple)
    (hother : r.Takes bs other) (hroom : bs.length < Numeral.word) : tuple = other := by
  have hword : ([] ++ bs ++ []).length < Numeral.word := by simpa using hroom
  obtain ⟨placed, hreset, hfields, hfield, -⟩ := h [] [] hword
  obtain ⟨placed', hreset', hfields', hfield', -⟩ := hother [] [] hword
  obtain rfl : placed = placed' := (Prod.mk.inj (hreset.symm.trans hreset')).1
  refine List.ext_getElem (hfields.symm.trans hfields') fun i hi hi' => ?_
  have hshown := hfield i _ (List.getElem?_eq_getElem hi)
  rw [hfield' i _ (List.getElem?_eq_getElem hi')] at hshown
  exact (Except.ok.inj hshown).symm

end Reader

namespace Plain

section stretch

variable {α β : Type}

@[simp] theorem length_stretch (xs : List α) (start count : Nat) :
    (stretch xs start count).length = min count (xs.length - start) := by
  simp [stretch]

theorem getElem?_stretch {xs : List α} {start count i : Nat} (h : i < count) :
    (stretch xs start count)[i]? = xs[start + i]? := by
  rw [stretch, List.getElem?_take_of_lt h, List.getElem?_drop]

theorem zip_stretch (xs : List α) (ys : List β) (start count : Nat) :
    (stretch xs start count).zip (stretch ys start count) = stretch (xs.zip ys) start count := by
  simp [stretch, List.zip, List.take_zipWith, List.drop_zipWith]

end stretch

theorem checkRange_eq_ok_iff {kinds : List FieldKind} {tuple : Tuple} {start count : Nat} :
    checkRange kinds tuple start count = .ok () ↔
      start + count ≤ tuple.length ∧ start + count ≤ kinds.length := by
  rw [← Nat.le_min, checkRange]
  split <;> simp_all

/-- The bytes of a stretch are told just where the tuple and the kinds reach over it. -/
theorem requiredFields_eq_ok_iff {kinds : List FieldKind} {tuple : Tuple} {start count n : Nat} :
    requiredFields kinds tuple start count = .ok n ↔
      (start + count ≤ tuple.length ∧ start + count ≤ kinds.length) ∧
        (encode kinds tuple start count).length = n := by
  rw [← checkRange_eq_ok_iff, requiredFields]
  cases hrange : checkRange kinds tuple start count <;>
    simp [bind, Except.bind, pure, Except.pure]

/-- A stretch can be stored just where the tuple and the kinds reach over it and its fields of
fixed length have that length. -/
theorem check_stretch_eq_ok_iff {kinds : List FieldKind} {tuple : Tuple} {start count : Nat} :
    check kinds tuple start count = .ok () ↔
      (start + count ≤ tuple.length ∧ start + count ≤ kinds.length) ∧
        ∀ i < count, ∀ length, kinds[start + i]? = some (.fixed length) →
          tuple[start + i]?.map List.length = some length := by
  rw [← checkRange_eq_ok_iff, check]
  cases hrange : checkRange kinds tuple start count with
  | error e => simp [bind, Except.bind]
  | ok u =>
    obtain ⟨htuple, hkinds⟩ := checkRange_eq_ok_iff.1 hrange
    have hlength : (stretch kinds start count).length = (stretch tuple start count).length := by
      simp only [length_stretch]
      omega
    have hcheck := (Stored.checkLengths_eq_ok_iff start hlength).trans (Stored.fits_iff hlength)
    simp only [bind, Except.bind, hcheck, true_and]
    constructor
    · intro hall i hi length hkind
      have hfield := hall i length (by rwa [getElem?_stretch hi])
      rwa [getElem?_stretch hi] at hfield
    · intro hall i length hkind
      have hi : i < count := by
        obtain ⟨hi, -⟩ := List.getElem?_eq_some_iff.1 hkind
        rw [length_stretch] at hi
        omega
      rw [getElem?_stretch hi] at hkind ⊢
      exact hall i hi length hkind

/-- What is stored of a stretch is the form of its fields. -/
theorem formed_stretch {kinds : List FieldKind} {tuple : Tuple} {start count : Nat}
    (hcheck : check kinds tuple start count = .ok ())
    (hroom : (encode kinds tuple start count).length < Numeral.word) :
    Stored.Formed (stretch (kinds.zip tuple) start count) (encode kinds tuple start count) := by
  obtain ⟨⟨htuple, hkinds⟩, -⟩ := check_stretch_eq_ok_iff.1 hcheck
  rw [← zip_stretch]
  refine Stored.formed_encode ?_ hroom
  simp only [length_stretch]
  omega

/-- A reader set to a stretch takes what is stored of it for its fields. -/
theorem exists_takes_stretch {kinds : List FieldKind} {tuple : Tuple} {start count : Nat}
    (hcheck : check kinds tuple start count = .ok ()) {r : Reader} {first number : Nat}
    (hshape : r.shape = .plain kinds first number) :
    ∃ ranged, r.setRange start count = .ok ranged ∧
      ranged.Takes (encode kinds tuple start count) (stretch tuple start count) := by
  obtain ⟨⟨htuple, hkinds⟩, hfixed⟩ := check_stretch_eq_ok_iff.1 hcheck
  have hlength : (stretch tuple start count).length = count := by
    rw [length_stretch]
    omega
  have hsame : (stretch kinds start count).length = (stretch tuple start count).length := by
    rw [hlength, length_stretch]
    omega
  have hfits : Stored.Fits (stretch kinds start count) (stretch tuple start count) := by
    have hrange := checkRange_eq_ok_iff.2 ⟨htuple, hkinds⟩
    rw [check, hrange] at hcheck
    exact (Stored.checkLengths_eq_ok_iff start hsame).1 hcheck
  refine ⟨{ r with shape := .plain kinds start count }, ?_, Reader.takes_encode hfits ?_⟩
  · rw [Reader.setRange, hshape]
    exact if_pos hkinds
  · exact ⟨hlength, hlength, fun i hi => ⟨i, rfl, hi, rfl⟩⟩

/-- A stretch of a tuple is written just where tuple and kinds reach over it, fixed lengths are
kept, and there is room. A reader set to the stretch shows the fields again, wherever the bytes
stand. A failed write changes nothing. -/
theorem writeFields_stretch (kinds : List FieldKind) (tuple : Tuple) (start count : Nat)
    {buf : Bytes} {offset : Nat} (hoffset : offset ≤ buf.length)
    (hbuf : buf.length < Numeral.word) :
    let answer := writeFields kinds tuple start count buf offset
    (∀ n, answer.2 = .ok n ↔
      (start + count ≤ tuple.length ∧ start + count ≤ kinds.length) ∧
      (∀ i < count, ∀ length, kinds[start + i]? = some (.fixed length) →
        tuple[start + i]?.map List.length = some length) ∧
      requiredFields kinds tuple start count = .ok n ∧ offset + n ≤ buf.length) ∧
    (∀ n, answer.2 = .ok n → ∃ bs, bs.length = n ∧
      answer.1 = buf.take offset ++ bs ++ buf.drop (offset + n) ∧
      (stretch (kinds.zip tuple) start count).length = count ∧
      Stored.Formed (stretch (kinds.zip tuple) start count) bs ∧
      ∀ (r : Reader) (first number : Nat), r.shape = .plain kinds first number →
        ∃ ranged, r.setRange start count = .ok ranged ∧
          ranged.Takes bs (stretch tuple start count)) ∧
    (∀ e, answer.2 = .error e → answer.1 = buf ∧ ∃ cause, e = .error cause) ∧
    write kinds tuple buf offset = writeFields kinds tuple 0 tuple.length buf offset := by
  intro answer
  have hfits := @check_stretch_eq_ok_iff kinds tuple start count
  have hinside : buf.length < offset → 0 < (encode kinds tuple start count).length := by omega
  cases hcheck : check kinds tuple start count with
  | error e =>
    have hanswer : answer = (buf, .error (.error e)) := by
      simp only [answer, writeFields, hcheck]
    rw [hcheck] at hfits
    refine ⟨fun n => ?_, fun n hn => ?_, fun f hf => ?_, rfl⟩
    · simp only [hanswer, reduceCtorEq, false_iff]
      rintro ⟨hrange, hfixed, -⟩
      exact absurd (hfits.2 ⟨hrange, hfixed⟩) (by simp)
    · rw [hanswer] at hn
      contradiction
    · rw [hanswer] at hf ⊢
      exact ⟨rfl, e, (Except.error.inj hf).symm⟩
  | ok u =>
    have hanswer : answer = Stored.put buf offset (encode kinds tuple start count) := by
      simp only [answer, writeFields, hcheck]
    obtain ⟨hrange, hfixed⟩ := hfits.1 hcheck
    rw [hanswer]
    refine ⟨fun n => ?_, fun n hn => ?_, fun f hf => ?_, rfl⟩
    · rw [Stored.put_eq_ok_iff hinside, requiredFields_eq_ok_iff]
      exact ⟨fun h => ⟨hrange, hfixed, ⟨hrange, h.1⟩, h.2⟩, fun h => ⟨h.2.2.1.2, h.2.2.2⟩⟩
    · obtain ⟨hlength, hroom⟩ := (Stored.put_eq_ok_iff hinside).1 hn
      refine ⟨_, hlength, Stored.put_fst_of_ok hn, ?_, formed_stretch hcheck (by omega), ?_⟩
      · rw [length_stretch, List.length_zip]
        omega
      · exact fun r first number hshape => exists_takes_stretch hcheck hshape
    · exact ⟨Stored.put_fst_of_error hf, _, Stored.eq_bufferTooSmall_of_put hinside hf⟩

/-- The second and the third field of a tuple, of which the second has a length of two groups, are
written behind one byte of a buffer and before four others. -/
theorem writeFields_stretch_two_groups :
    let kinds : List FieldKind := [.fixed 2, .varying, .fixed 1]
    let tuple : Tuple := [[1, 2], List.replicate 130 7, [5]]
    let answer := writeFields kinds tuple 1 2 (List.replicate 139 9) 1
    answer.2 = .ok 134 ∧ ∃ bs, bs.length = 134 ∧ answer.1 = [9] ++ bs ++ [9, 9, 9, 9] ∧
      Stored.Formed [(.varying, List.replicate 130 7), (.fixed 1, [5])] bs ∧
      ∃ ranged, (Codec.plain kinds).reader.setRange 1 2 = .ok ranged ∧
        ranged.Takes bs [List.replicate 130 7, [5]] := by
  intro kinds tuple answer
  have hlength : (List.replicate 139 (9 : UInt8)).length = 139 := List.length_replicate
  have hoffset : 1 ≤ (List.replicate 139 (9 : UInt8)).length := by omega
  have h := writeFields_stretch kinds tuple 1 2 hoffset (by rw [hlength]; decide)
  have hok : answer.2 = .ok 134 := by
    refine (h.1 134).2 ⟨by decide, ?_, by cbv, by omega⟩
    intro i hi length hkind
    obtain rfl | rfl : i = 0 ∨ i = 1 := by omega
    · simp [kinds] at hkind
    · obtain rfl : 1 = length := by simpa [kinds] using hkind
      rfl
  obtain ⟨bs, hbytes, hout, -, hformed, hreader⟩ := h.2.1 134 hok
  rw [List.take_replicate, List.drop_replicate] at hout
  exact ⟨hok, bs, hbytes, hout, hformed, hreader _ 0 3 rfl⟩

end Plain

namespace PointBox

/-- Numbers of fields that are taken are those of the box. -/
theorem counts_of_ofCounts {kinds : List FieldKind} {keyFields valueFields : Nat} {box : PointBox}
    (h : ofCounts kinds keyFields valueFields = .ok box) :
    box.kinds = kinds ∧ box.dimensions = keyFields / 2 ∧ box.keyFields = keyFields ∧
      box.values = valueFields := by
  have hkinds : ofKinds kinds keyFields valueFields = .ok box := by
    rw [ofCounts] at h
    split at h
    · contradiction
    · exact Outcome.ofExcept_eq_ok_iff.1 h
  rw [ofKinds] at hkinds
  split at hkinds
  · contradiction
  · split at hkinds
    · contradiction
    · split at hkinds
      · contradiction
      · obtain rfl := Except.ok.inj hkinds
        exact ⟨rfl, rfl, by simp only [PointBox.keyFields]; omega, rfl⟩

theorem zip_stored (box : PointBox) (kinds : List FieldKind) (tuple : Tuple)
    (h : kinds.length = tuple.length) :
    (box.stored kinds).zip (box.stored tuple) = box.stored (kinds.zip tuple) := by
  have hlower : (kinds.take box.dimensions).length = (tuple.take box.dimensions).length := by
    simp [h]
  rw [stored, stored, List.zip_append hlower]
  simp [stored, List.zip, List.take_zipWith, List.drop_zipWith]

/-- Of a list with all fields, the first half of the key is stored, and all behind the key. -/
theorem stored_eq {α : Type} {box : PointBox} {xs : List α} (hlength : xs.length = box.fields) :
    box.stored xs = xs.take box.dimensions ++ xs.drop box.keyFields := by
  rw [stored, List.take_of_length_le (l := xs.drop box.keyFields)]
  rw [List.length_drop, hlength, fields]
  omega

theorem length_zip_kinds {box : PointBox} {tuple : Tuple} (hlength : tuple.length = box.fields) :
    (box.kinds.zip tuple).length = box.fields := by
  rw [List.length_zip, hlength, box.length_kinds]
  exact Nat.min_self _

/-- Only values have slots. -/
theorem filter_stored {box : PointBox} {tuple : Tuple} (hlength : tuple.length = box.fields) :
    (box.stored (box.kinds.zip tuple)).filter (·.1.isVarying) =
      ((box.kinds.zip tuple).drop box.keyFields).filter (·.1.isVarying) := by
  have hkinds : box.kinds.length = tuple.length := box.length_kinds.trans hlength.symm
  have hzip := length_zip_kinds hlength
  have hkeys : ((box.kinds.zip tuple).take box.dimensions).filter (·.1.isVarying) = [] := by
    refine List.filter_eq_nil_iff.2 fun p hp => ?_
    have hkind := List.mem_map_of_mem (f := Prod.fst) hp
    rw [List.map_take, List.map_fst_zip (Nat.le_of_eq hkinds)] at hkind
    have hfixed := box.fixed_keys _ (List.take_subset_take_left _ (by omega) hkind)
    simp [hfixed]
  rw [stored_eq hzip, List.filter_append, hkeys, List.nil_append]

/-- Behind the slots stand the first half of the key and the values. -/
theorem flatMap_stored {box : PointBox} {tuple : Tuple} (hlength : tuple.length = box.fields) :
    (box.stored (box.kinds.zip tuple)).flatMap (·.2) =
      (tuple.take box.dimensions).flatten ++ (tuple.drop box.keyFields).flatten := by
  have hkinds : box.kinds.length = tuple.length := box.length_kinds.trans hlength.symm
  have hzip := length_zip_kinds hlength
  have hsecond : (box.kinds.zip tuple).map Prod.snd = tuple :=
    List.map_snd_zip (Nat.le_of_eq hkinds.symm)
  rw [List.flatMap_def, stored_eq hzip, List.map_append, List.map_take, List.map_drop, hsecond,
    List.flatten_append]

/-- A tuple with all fields is stored as the form of the stored ones. -/
theorem formed_stored {box : PointBox} {tuple : Tuple} (hlength : tuple.length = box.fields)
    (hroom : (box.encode tuple).length < Numeral.word) :
    Stored.Formed (box.stored (box.kinds.zip tuple)) (box.encode tuple) := by
  have hkinds : box.kinds.length = box.fields := box.length_kinds
  rw [← zip_stored box box.kinds tuple (hkinds.trans hlength.symm)]
  refine Stored.formed_encode ?_ hroom
  exact (length_stored hkinds).trans (length_stored hlength).symm

/-- A reader of points takes what is stored of a tuple for it. -/
theorem takes_stored {box : PointBox} {tuple : Tuple} (hcheck : box.check tuple = .ok ())
    {r : Reader} (hshape : r.shape = .pointBox box) : r.Takes (box.encode tuple) tuple := by
  obtain ⟨hlength, hfits, hpoint⟩ := check_eq_ok_iff.1 hcheck
  have hstored : Stored.Fits r.shape.storedKinds (box.stored tuple) := by
    rw [hshape]
    exact @Codec.fits_stored (.pointBox box) _ hfits
  have htakes := Reader.takes_encode hstored (hshape ▸ (shows_stored_iff hlength).2 hpoint)
  rwa [hshape] at htakes

/-- The check, field by field: a tuple passes just where it has all fields, each field of fixed
length has it, and the upper coordinates are the lower ones. -/
theorem check_eq_ok_iff_fields {box : PointBox} {tuple : Tuple} :
    box.check tuple = .ok () ↔
      tuple.length = box.fields ∧
      (∀ (i length : Nat), box.kinds[i]? = some (.fixed length) →
        tuple[i]?.map List.length = some length) ∧
      ∀ i < box.dimensions, tuple[i]? = tuple[i + box.dimensions]? := by
  rw [check_eq_ok_iff]
  refine and_congr_right fun hlength => and_congr ?_ ?_
  · exact Stored.fits_iff (box.length_kinds.trans hlength.symm)
  · simp only [Nat.add_comm box.dimensions]

/-- The bytes of a tuple are told where it has all fields. -/
theorem required_eq {box : PointBox} {tuple : Tuple} (hlength : tuple.length = box.fields) :
    box.required tuple = .ok (box.encode tuple).length := by
  rw [required, if_pos (length_stored hlength)]

/-- What is stored of a tuple is never empty. -/
theorem length_encode_pos {box : PointBox} {tuple : Tuple} (hlength : tuple.length = box.fields) :
    0 < (box.encode tuple).length := by
  have hpos := box.dimensions_pos
  rw [encode, Stored.length_encode, length_stored hlength, Stored.bitmapSize]
  omega

/-- What a write that succeeds leaves: the stored form of a tuple that passes the check, with the
bytes around it. -/
theorem image_of_write {box : PointBox} {tuple : Tuple} {buf : Bytes} {offset n : Nat}
    (h : (box.write tuple buf offset).2 = .ok n) :
    box.check tuple = .ok () ∧ (box.encode tuple).length = n ∧ offset + n ≤ buf.length ∧
      (box.write tuple buf offset).1 =
        buf.take offset ++ box.encode tuple ++ buf.drop (offset + n) := by
  cases hcheck : box.check tuple with
  | error e => simp [write, hcheck] at h
  | ok u =>
    have hpos := length_encode_pos (check_eq_ok_iff.1 hcheck).1
    simp only [write, hcheck] at h ⊢
    obtain ⟨hlength, hroom⟩ := (Stored.put_eq_ok_iff fun _ => hpos).1 h
    exact ⟨trivial, hlength, hroom, Stored.put_fst_of_ok h⟩

/-- A tuple is written just where it passes the check and the bytes asked for are there. -/
theorem write_eq_ok_iff {box : PointBox} {tuple : Tuple} {buf : Bytes} {offset n : Nat} :
    (box.write tuple buf offset).2 = .ok n ↔
      box.check tuple = .ok () ∧ box.required tuple = .ok n ∧ offset + n ≤ buf.length := by
  constructor
  · intro h
    obtain ⟨hcheck, hlength, hroom, -⟩ := image_of_write h
    rw [required_eq (check_eq_ok_iff.1 hcheck).1, hlength]
    exact ⟨hcheck, rfl, hroom⟩
  · rintro ⟨hcheck, hrequired, hroom⟩
    rw [required_eq (check_eq_ok_iff.1 hcheck).1] at hrequired
    have hlength := Except.ok.inj hrequired
    simp only [write, hcheck]
    rw [Stored.put_of_le (by omega), hlength]

theorem slice_of_write {box : PointBox} {tuple : Tuple} {buf : Bytes} {offset n : Nat}
    (h : (box.write tuple buf offset).2 = .ok n) :
    Bytes.slice (box.write tuple buf offset).1 offset n = box.encode tuple := by
  obtain ⟨-, hlength, hroom, hout⟩ := image_of_write h
  refine Bytes.slice_eq _ _ hout ?_ hlength.symm
  rw [List.length_take, Nat.min_eq_left (by omega)]

/-- A write that fails leaves the buffer as it was, and breaks no precondition. -/
theorem error_of_write {box : PointBox} {tuple : Tuple} {buf : Bytes} {offset : Nat} {e : Failure}
    (h : (box.write tuple buf offset).2 = .error e) :
    (box.write tuple buf offset).1 = buf ∧ ∃ cause, e = .error cause := by
  cases hcheck : box.check tuple with
  | error cause =>
    simp only [write, hcheck] at h ⊢
    exact ⟨trivial, cause, (Except.error.inj h).symm⟩
  | ok u =>
    have hpos := length_encode_pos (check_eq_ok_iff.1 hcheck).1
    simp only [write, hcheck] at h ⊢
    exact ⟨Stored.put_fst_of_error h, _, Stored.eq_bufferTooSmall_of_put (fun _ => hpos) h⟩

/-- A tuple is written as a point just where it has all fields, of their fixed lengths, with equal
coordinates in each dimension, and there is room. It is read back wherever the bytes stand, and no
other tuple is written as them. A failed write changes nothing. -/
theorem write_point {kinds : List FieldKind} {keyFields valueFields : Nat} {box : PointBox}
    (hbox : ofCounts kinds keyFields valueFields = .ok box) (tuple : Tuple) {buf : Bytes}
    (offset : Nat) (hbuf : buf.length < Numeral.word) :
    let answer := box.write tuple buf offset
    (∀ n, answer.2 = .ok n ↔
      tuple.length = keyFields + valueFields ∧
      (∀ (i length : Nat), kinds[i]? = some (.fixed length) →
        tuple[i]?.map List.length = some length) ∧
      (∀ i < keyFields / 2, tuple[i]? = tuple[i + keyFields / 2]?) ∧
      box.required tuple = .ok n ∧ offset + n ≤ buf.length) ∧
    (∀ n, answer.2 = .ok n → ∃ bs, bs.length = n ∧
      answer.1 = buf.take offset ++ bs ++ buf.drop (offset + n) ∧
      bs = Bytes.zeros ((keyFields / 2 + valueFields + 7) / 8) ++
        (((kinds.zip tuple).drop keyFields).filter (·.1.isVarying)).flatMap
          (Varint.encode ·.2.length) ++
        ((tuple.take (keyFields / 2)).flatten ++ (tuple.drop keyFields).flatten) ∧
      Stored.Formed ((kinds.zip tuple).take (keyFields / 2) ++ (kinds.zip tuple).drop keyFields)
        bs ∧
      ∀ r : Reader, r.shape = .pointBox box → r.Takes bs tuple) ∧
    (∀ e, answer.2 = .error e → answer.1 = buf ∧ ∃ cause, e = .error cause) ∧
    ∀ n, answer.2 = .ok n → ∀ other buf' offset' n',
      (box.write other buf' offset').2 = .ok n' →
      Bytes.slice (box.write other buf' offset').1 offset' n' = Bytes.slice answer.1 offset n →
      other = tuple := by
  intro answer
  obtain ⟨rfl, hdimensions, hkeys, hvalues⟩ := counts_of_ofCounts hbox
  have hfields : box.fields = keyFields + valueFields := by rw [fields, hkeys, hvalues]
  refine ⟨fun n => ?_, fun n hn => ?_, fun e he => error_of_write he, ?_⟩
  · rw [write_eq_ok_iff, check_eq_ok_iff_fields, hfields, hdimensions, and_assoc, and_assoc]
  · obtain ⟨hok, hlength, hroom, hout⟩ := image_of_write hn
    have hcount := (check_eq_ok_iff.1 hok).1
    have hzip := length_zip_kinds hcount
    have hformed := formed_stored hcount (by omega)
    refine ⟨box.encode tuple, hlength, hout, ?_, ?_, fun r hr => takes_stored hok hr⟩
    · rw [hformed.layout, length_stored hzip, filter_stored hcount, flatMap_stored hcount, hkeys,
        hdimensions, hvalues]
    · rwa [stored_eq hzip, hkeys, hdimensions] at hformed
  · intro n hn other buf' offset' n' hn' hslice
    obtain ⟨hok, hlength, hroom, -⟩ := image_of_write hn
    rw [slice_of_write hn, slice_of_write hn'] at hslice
    have hother := takes_stored (image_of_write hn').1 (r := (Codec.pointBox box).reader) rfl
    rw [hslice] at hother
    exact hother.inj (takes_stored hok rfl) (by omega)

/-- A point of two dimensions with two values is written in eight bytes, of which the fields take
six and the length of the first value one. -/
theorem write_point_two_dimensions :
    let kinds : List FieldKind := [.fixed 1, .fixed 2, .fixed 1, .fixed 2, .varying, .fixed 1]
    let tuple : Tuple := [[1], [2, 3], [1], [2, 3], [7, 8], [9]]
    let bs : Bytes := [0, 2, 1, 2, 3, 7, 8, 9]
    ∃ box, ofCounts kinds 4 2 = .ok box ∧
      box.write tuple (List.replicate 10 255) 1 = ([255] ++ bs ++ [255], .ok 8) ∧
      ∀ r : Reader, r.shape = .pointBox box → r.Takes bs tuple := by
  intro kinds tuple bs
  have hbox : ofCounts kinds 4 2 = .ok
      { dimensions := 2, values := 2, kinds := kinds, dimensions_pos := by decide,
        length_kinds := by decide, fixed_keys := by decide } := by cbv
  have hbuf : (List.replicate 10 (255 : UInt8)).length < Numeral.word := by decide
  have h := write_point hbox tuple 1 hbuf
  have hfits : Stored.Fits kinds tuple := by simp [kinds, tuple, FieldKind.Admits]
  have hok := (h.1 8).2 ⟨by decide, (Stored.fits_iff rfl).1 hfits, by decide, by cbv, by decide⟩
  obtain ⟨written, -, hout, hlayout, -, hreader⟩ := h.2.1 8 hok
  have hbytes : written = bs := by
    rw [hlayout]
    decide +kernel
  subst hbytes
  exact ⟨_, hbox, Prod.ext hout hok, hreader⟩

end PointBox

end Strata
