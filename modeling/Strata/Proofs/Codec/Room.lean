import Mathlib.Data.List.Nodup
import Mathlib.Data.List.Perm.Subperm
import Strata.Proofs.Codec.Storing

/-!
# The room of tuples

The images of tuples stand one behind the other. An image of a single byte belongs to one of a few
tuples, those of at most sixteen empty fields. So different tuples in a row take two bytes each on
average, up to a constant, and where the last of them begins below 2 ^ 32 they are fewer than
2 ^ 32.
-/

namespace Strata

namespace Codec

/-- The images of tuples, one behind the other. -/
def images (codec : Codec) (tuples : List Tuple) : Bytes := tuples.flatMap codec.image

/-- Where the images of tuples begin, the first of them at `start`. -/
def starts (codec : Codec) : (start : Nat) → List Tuple → List Nat
  | _, [] => []
  | start, t :: rest => start :: starts codec (start + (codec.image t).length) rest

@[simp] theorem images_append (codec : Codec) (tuples others : List Tuple) :
    codec.images (tuples ++ others) = codec.images tuples ++ codec.images others :=
  List.flatMap_append ..

@[simp] theorem images_singleton (codec : Codec) (t : Tuple) :
    codec.images [t] = codec.image t := by
  simp [images]

@[simp] theorem length_starts (codec : Codec) (start : Nat) (tuples : List Tuple) :
    (codec.starts start tuples).length = tuples.length := by
  induction tuples generalizing start with
  | nil => rfl
  | cons t rest ih => simp [starts, ih]

theorem starts_append (codec : Codec) (start : Nat) (tuples : List Tuple) (t : Tuple) :
    codec.starts start (tuples ++ [t]) =
      codec.starts start tuples ++ [start + (codec.images tuples).length] := by
  induction tuples generalizing start with
  | nil => simp [starts, images]
  | cons u rest ih => simp [starts, ih, images, Nat.add_assoc]

theorem le_of_mem_starts {codec : Codec} {start o : Nat} {tuples : List Tuple}
    (h : o ∈ codec.starts start tuples) : o ≤ start + (codec.images tuples).length := by
  induction tuples generalizing start with
  | nil => simp [starts] at h
  | cons t rest ih =>
    have hsplit : (codec.images (t :: rest)).length =
        (codec.image t).length + (codec.images rest).length := by simp [images]
    rcases List.mem_cons.1 h with rfl | h
    · omega
    · have := ih h
      omega

/-- A tuple with fields is stored in at least one byte. -/
theorem length_image_pos {codec : Codec} {t : Tuple} (h : codec.Keeps t)
    (hkinds : 0 < codec.kinds.length) : 0 < (codec.image t).length := by
  have hstored : 0 < (codec.stored t).length := by
    rw [h.shows.stored_length]
    cases codec with
    | plain kinds => exact hkinds
    | pointBox box =>
      have hpos := box.dimensions_pos
      simp only [shape, Shape.storedFields]
      omega
  rw [image, Stored.length_encode, Stored.bitmapSize]
  omega

/-- A tuple that is stored in one byte has nothing but empty fields. -/
theorem eq_nil_of_length_image_le_one {codec : Codec} {t : Tuple} (h : codec.Keeps t)
    (hkinds : 0 < codec.kinds.length) (hone : (codec.image t).length ≤ 1) :
    t = List.replicate codec.kinds.length [] := by
  have hpos := length_image_pos h hkinds
  have hstored : 0 < (codec.stored t).length := by
    by_contra hzero
    have hnil : codec.stored t = [] := List.eq_nil_of_length_eq_zero (by omega)
    obtain ⟨j, -, hj, -⟩ := h.shows.field 0 (by rw [h.length]; exact hkinds)
    omega
  have hpayload : Tuple.payload (codec.stored t) = 0 := by
    rw [image, Stored.length_encode, Stored.bitmapSize] at hone
    omega
  have hempty : ∀ f ∈ codec.stored t, f = [] := by
    rw [← Tuple.length_flatten_eq_payload, List.length_eq_zero_iff, List.flatten_eq_nil_iff]
      at hpayload
    exact hpayload
  refine List.eq_replicate_iff.2 ⟨h.length, fun f hf => ?_⟩
  obtain ⟨i, hi, rfl⟩ := List.mem_iff_getElem.1 hf
  obtain ⟨j, -, hj, heq⟩ := h.shows.field i hi
  rw [List.getElem?_eq_getElem hj, List.getElem?_eq_getElem hi] at heq
  rw [← Option.some.inj heq]
  exact hempty _ (List.getElem_mem hj)

/-- A tuple whose image is a single byte has nothing but empty fields, and few of them. -/
theorem eq_replicate_of_length_image_le_one {codec : Codec} {tuple : Tuple}
    (h : codec.Stores tuple) (hone : (codec.image tuple).length ≤ 1) :
    ∃ n < 17, tuple = List.replicate n [] := by
  have hlength := Stored.length_encode codec.shape.storedKinds (codec.stored tuple)
  rw [← image, Stored.bitmapSize] at hlength
  cases codec with
  | plain kinds =>
    change _ = (tuple.length + 7) / 8 + _ + Tuple.payload tuple at hlength
    refine ⟨tuple.length, by omega, List.eq_replicate_iff.2 ⟨rfl, fun f hf => ?_⟩⟩
    have hpos := List.length_pos_of_mem hf
    have hpayload : Tuple.payload tuple = 0 := by omega
    rw [← Tuple.length_flatten_eq_payload, List.length_eq_zero_iff,
      List.flatten_eq_nil_iff] at hpayload
    exact hpayload f hf
  | pointBox box =>
    have hkeeps := keeps_of_stores_pointBox h
    have hstored := hkeeps.shows.stored_length
    have hkinds := box.length_kinds
    have hpos := box.dimensions_pos
    change _ = box.dimensions + box.values at hstored
    refine ⟨box.kinds.length, by omega, ?_⟩
    exact eq_nil_of_length_image_le_one hkeeps (by simp only [kinds]; omega) hone

/-- Every tuple takes two bytes, but for those whose image is a single one. -/
theorem two_mul_length_le_countP (codec : Codec) (tuples : List Tuple) :
    2 * tuples.length ≤ (codec.images tuples).length +
      2 * tuples.countP fun t => (codec.image t).length ≤ 1 := by
  induction tuples with
  | nil => simp
  | cons t rest ih =>
    have hsplit : (codec.images (t :: rest)).length =
        (codec.image t).length + (codec.images rest).length := by simp [images]
    rw [List.length_cons, hsplit, List.countP_cons]
    by_cases hone : (codec.image t).length ≤ 1
    · simp only [hone, decide_true, if_true]
      omega
    · simp only [hone, decide_false, Bool.false_eq_true, if_false]
      omega

/-- Tuples in a row, as a codec stores them, of which the last one begins below 2 ^ 32. -/
structure Lines (codec : Codec) (tuples : List Tuple) : Prop where
  stores : ∀ t ∈ tuples, codec.Stores t
  low : ∀ front last, tuples = front ++ [last] → (codec.images front).length < 2 ^ 32

theorem lines_nil (codec : Codec) : codec.Lines [] where
  stores := by simp
  low := by simp

/-- A tuple that begins below 2 ^ 32 may be put last in a row. -/
theorem lines_append {codec : Codec} {tuples : List Tuple} {t : Tuple} (h : codec.Lines tuples)
    (ht : codec.Stores t) (hlow : (codec.images tuples).length < 2 ^ 32) :
    codec.Lines (tuples ++ [t]) := by
  constructor
  · intro u hu
    rcases List.mem_append.1 hu with hu | hu
    · exact h.stores u hu
    · rwa [List.mem_singleton.1 hu]
  · intro front last hlast
    rwa [← (List.append_inj' hlast rfl).1]

/-- Different tuples in a row are fewer than 2 ^ 32. -/
theorem length_lt_of_lines {codec : Codec} {tuples : List Tuple} (h : codec.Lines tuples)
    (hdistinct : tuples.Nodup) : tuples.length < 2 ^ 32 := by
  rcases List.eq_nil_or_concat tuples with rfl | ⟨front, last, rfl⟩
  · simp
  · rw [List.concat_eq_append] at h hdistinct ⊢
    have hlow := h.low front last rfl
    have hcount := two_mul_length_le_countP codec front
    have hfew : front.countP (fun t => (codec.image t).length ≤ 1) ≤ 17 := by
      rw [List.countP_eq_length_filter]
      have hsub : front.filter (fun t => (codec.image t).length ≤ 1) ⊆
          (List.range 17).map fun n => List.replicate n ([] : Bytes) := by
        intro t ht
        obtain ⟨hmem, hone⟩ := List.mem_filter.1 ht
        obtain ⟨n, hn, rfl⟩ := eq_replicate_of_length_image_le_one
          (h.stores t (List.mem_append_left _ hmem)) (by simpa using hone)
        exact List.mem_map.2 ⟨n, List.mem_range.2 hn, rfl⟩
      have hnodup := (List.nodup_append.1 hdistinct).1.filter
        fun t => decide ((codec.image t).length ≤ 1)
      simpa using (hnodup.subperm hsub).length_le
    rw [List.length_append, List.length_singleton]
    omega

end Codec

end Strata
