import Strata.Codec
import Strata.Proofs.Codec.Slots

/-!
# Tuples and their stored images

A codec stores some fields of a tuple, and a reader shows the tuple again. Where the stored fields
fit their kinds and the reader shows them as the tuple, the tuple is said to be kept. A kept tuple
is written as its image, at any place of a buffer, and read back from there.
-/

namespace Strata

namespace Shape

/-- The stored fields, shown through a shape, are the fields of a tuple. -/
structure Shows (shape : Shape) (stored tuple : Tuple) : Prop where
  length : tuple.length = shape.fields
  stored_length : stored.length = shape.storedFields
  field : ∀ i < tuple.length, ∃ j, shape.storedIndex? i = some j ∧ j < stored.length ∧
    stored[j]? = tuple[i]?

end Shape

namespace Reader

/-- A reader stands on a list of stored fields. -/
structure On (r : Reader) (stored : Tuple) : Prop where
  ends : r.ends = Stored.ends 0 stored
  data : ∃ before after, r.buf = before ++ stored.flatten ++ after ∧ r.dataStart = before.length

theorem endOf_of_on {r : Reader} {stored : Tuple} (hr : r.On stored) {j : Nat}
    (hj : j < stored.length) : r.endOf j = .ok (Tuple.payload (stored.take (j + 1))) := by
  have hend := Stored.getElem?_ends 0 hj
  rw [Nat.zero_add] at hend
  rw [endOf, hr.ends, hend]
  rfl

theorem beginOf_of_on {r : Reader} {stored : Tuple} (hr : r.On stored) {j : Nat}
    (hj : j < stored.length) : r.beginOf j = .ok (Tuple.payload (stored.take j)) := by
  cases j with
  | zero => rfl
  | succ j => exact endOf_of_on hr (Nat.lt_of_succ_lt hj)

/-- The bytes between the ends of two neighbouring fields are those of the field. -/
theorem between_of_on {r : Reader} {stored : Tuple} (hr : r.On stored) {j : Nat}
    (hj : j < stored.length) :
    r.between (r.dataStart + Tuple.payload (stored.take j))
      (r.dataStart + Tuple.payload (stored.take (j + 1))) = .ok stored[j] := by
  obtain ⟨before, after, hbuf, hstart⟩ := hr.data
  have hsplit : stored.flatten =
      (stored.take j).flatten ++ stored[j] ++ (stored.drop (j + 1)).flatten := by
    conv => lhs; rw [← List.take_append_drop j stored]
    rw [List.flatten_append, List.append_assoc, List.drop_eq_getElem_cons hj, List.flatten_cons]
  have hslice := Bytes.slice_append (before ++ (stored.take j).flatten) stored[j]
    ((stored.drop (j + 1)).flatten ++ after)
  have hwhole : before ++ (stored.take j).flatten ++ stored[j] ++
      ((stored.drop (j + 1)).flatten ++ after) = r.buf := by
    rw [hbuf, hsplit]
    simp only [List.append_assoc]
  have hlength := congrArg List.length hwhole
  rw [hwhole, List.length_append, Tuple.length_flatten_eq_payload] at hslice
  simp only [List.length_append, Tuple.length_flatten_eq_payload] at hlength
  rw [between, Tuple.payload_take_succ hj, hstart, if_pos (by omega), ← Nat.add_assoc,
    Nat.add_sub_cancel_left, hslice]

/-- A reader on the stored fields shows a field as the one it is stored as. -/
theorem field_of_stored {r : Reader} {stored : Tuple} (hr : r.On stored) {i j : Nat}
    (hj : r.shape.storedIndex? i = some j) (hlt : j < stored.length) :
    r.field i = .ok stored[j] := by
  rw [field, hj, Outcome.bind_eq_ok_iff]
  refine ⟨j, rfl, Outcome.bind_eq_ok_iff.2 ⟨_, beginOf_of_on hr hlt, ?_⟩⟩
  exact Outcome.bind_eq_ok_iff.2 ⟨_, endOf_of_on hr hlt, between_of_on hr hlt⟩

/-- A reader on the stored fields shows each field as one of them. -/
theorem field_of_on {r : Reader} {stored tuple : Tuple} (hr : r.On stored)
    (hshows : r.shape.Shows stored tuple) {i : Nat} (hi : i < tuple.length) :
    r.field i = .ok tuple[i] := by
  obtain ⟨j, hj, hlt, heq⟩ := hshows.field i hi
  rw [List.getElem?_eq_getElem hlt, List.getElem?_eq_getElem hi] at heq
  rw [field_of_stored hr hj hlt, Option.some.inj heq]

/-- A reader on the stored fields shows the tuple they stand for. -/
theorem tuple_of_on {r : Reader} {stored tuple : Tuple} (hr : r.On stored)
    (hshows : r.shape.Shows stored tuple) : r.tuple = .ok tuple := by
  have hmap : ∀ n (hn : n ≤ tuple.length),
      (List.range n).mapM r.field = .ok (tuple.take n) := by
    intro n hn
    induction n with
    | zero => rfl
    | succ n ih =>
      rw [List.range_succ, List.mapM_append, ih (Nat.le_of_succ_le hn), List.take_add_one,
        List.getElem?_eq_getElem hn]
      simp [field_of_on hr hshows hn, bind, Except.bind, pure, Except.pure]
  have hall := hmap tuple.length (Nat.le_refl _)
  rw [List.take_length] at hall
  rw [Reader.tuple, fields, ← hshows.length]
  exact hall

/-- A reader on the stored fields tells the bytes up to the end of the last one. -/
theorem tupleSize_of_on {r : Reader} {stored : Tuple} (hr : r.On stored)
    (hbuf : r.buf.length < Numeral.word) :
    r.tupleSize = .ok (r.dataStart - r.tupleStart + Tuple.payload stored) := by
  obtain ⟨before, after, hcut, hdata⟩ := hr.data
  have hlength := congrArg List.length hcut
  simp only [List.length_append, Tuple.length_flatten_eq_payload] at hlength
  rw [tupleSize, hr.ends, Stored.getLastD_ends, Outcome.ofWord_eq_ok_iff]
  omega

/-- A reader placed on a stored form stands on its fields, and tells the bytes they take. -/
theorem exists_on_of_reset {r : Reader} {fields : Tuple}
    (hfits : Stored.Fits r.shape.storedKinds fields)
    (hfields : r.shape.storedFields = fields.length) (before after : Bytes)
    (hroom : (before ++ Stored.encode r.shape.storedKinds fields ++ after).length <
      Numeral.word) :
    ∃ placed, r.reset (before ++ Stored.encode r.shape.storedKinds fields ++ after)
        before.length = (placed, .ok ()) ∧
      placed.shape = r.shape ∧ placed.On fields ∧
      placed.tupleSize = .ok (Stored.encode r.shape.storedKinds fields).length := by
  refine ⟨_, reset_encode hfits hfields before after hroom, rfl, ⟨rfl, ?_⟩, ?_⟩
  · refine ⟨before ++ Bytes.zeros (Stored.bitmapSize fields.length) ++
      Stored.slots r.shape.storedKinds fields, after, ?_, ?_⟩
    · simp [Stored.encode, List.append_assoc]
    · simp
      omega
  · have hsize := Stored.length_encode r.shape.storedKinds fields
    simp only [List.length_append] at hroom
    rw [Reader.tupleSize, Stored.getLastD_ends, Outcome.ofWord_eq_ok_iff]
    dsimp only
    omega

end Reader

namespace Codec

/-- The kinds of the fields of a tuple. -/
def kinds : Codec → List FieldKind
  | .plain kinds => kinds
  | .pointBox box => box.kinds

/-- The fields of a tuple that are stored. -/
def stored : Codec → Tuple → Tuple
  | .plain _, tuple => tuple
  | .pointBox box, tuple => box.stored tuple

/-- The stored form of a tuple. -/
def image (codec : Codec) (tuple : Tuple) : Bytes :=
  Stored.encode codec.shape.storedKinds (codec.stored tuple)

/-- A tuple whose fields fit their kinds, and whose stored fields are shown as the tuple again. -/
structure Keeps (codec : Codec) (tuple : Tuple) : Prop where
  fits : Stored.Fits codec.kinds tuple
  shows : codec.shape.Shows (codec.stored tuple) tuple

/-- The stored fields of a kept tuple fit their kinds. -/
theorem fits_stored {codec : Codec} {tuple : Tuple} (h : Stored.Fits codec.kinds tuple) :
    Stored.Fits codec.shape.storedKinds (codec.stored tuple) := by
  cases codec with
  | plain kinds =>
    have hall : (plain kinds).shape.storedKinds = kinds := by
      simp [shape, Shape.storedKinds, Plain.stretch]
    rw [hall]
    exact h
  | pointBox box =>
    have hlower := List.forall₂_take box.dimensions h
    have hvalues := List.forall₂_take box.values (List.forall₂_drop box.keyFields h)
    exact List.rel_append hlower hvalues

/-- A reader placed on the image of a kept tuple shows the tuple, and tells its size. -/
theorem reset_image {codec : Codec} {tuple : Tuple} (hkeeps : codec.Keeps tuple)
    (before after : Bytes)
    (hroom : (before ++ codec.image tuple ++ after).length < Numeral.word) :
    ∃ r, codec.reader.reset (before ++ codec.image tuple ++ after) before.length = (r, .ok ()) ∧
      r.shape = codec.shape ∧ r.tuple = .ok tuple ∧
      r.tupleSize = .ok (codec.image tuple).length := by
  obtain ⟨r, hreset, hshape, hon, hsize⟩ := Reader.exists_on_of_reset (r := codec.reader)
    (fits_stored hkeeps.fits) hkeeps.shows.stored_length.symm before after hroom
  exact ⟨r, hreset, hshape, Reader.tuple_of_on hon (hshape ▸ hkeeps.shows), hsize⟩

/-- A kept tuple is read back from its image, whatever bytes surround it. -/
theorem read_image {codec : Codec} {tuple : Tuple} (hkeeps : codec.Keeps tuple)
    (before after : Bytes)
    (hroom : (before ++ codec.image tuple ++ after).length < Numeral.word) :
    codec.read (before ++ codec.image tuple ++ after) before.length = .ok tuple := by
  obtain ⟨r, hreset, _, htuple, _⟩ := reset_image hkeeps before after hroom
  rw [read, hreset]
  exact htuple

end Codec

end Strata
