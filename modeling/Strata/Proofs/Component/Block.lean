import Strata.Proofs.Bytes
import Strata.Proofs.Codec.Room
import Strata.Proofs.Component.Adding

/-!
# Data blocks are read back

A draft holds the images of its tuples, one behind the other, and where each begins. The block built
from it is read as just that, and every tuple in it for what it was.

The count of tuples is written in four bytes, and nothing in a draft bounds it but the offsets,
which stay below 2 ^ 32. Different tuples that begin below that are fewer, so their count fits.
-/

namespace Strata

namespace Draft

/-- The tuples a draft holds, in order. -/
structure Holds (d : Draft) (tuples : List Tuple) : Prop where
  data : d.data = d.codec.images tuples
  offsets : d.offsets = d.codec.starts 0 tuples
  low : ∀ o ∈ d.offsets, o < 2 ^ 32
  kept : ∀ t ∈ tuples, d.codec.Keeps t

theorem holds_nil (codec : Codec) (capacity : Nat) : Holds { codec, capacity } [] where
  data := rfl
  offsets := rfl
  low := by simp
  kept := by simp

theorem length_of_holds {d : Draft} {tuples : List Tuple} (h : d.Holds tuples) :
    d.length = tuples.length := by
  rw [length, h.offsets, Codec.length_starts]

theorem length_row (d : Draft) :
    (d.offsets.flatMap (Bytes.ofNat Block.numberSize)).length =
      d.offsets.length * Block.numberSize := by
  rw [List.length_flatMap]
  simp

theorem length_build (d : Draft) : d.build.length = d.size := by
  simp only [build, body, List.length_append, length_row, Bytes.length_ofNat, size]
  simp only [Block.numberSize, Block.trailerSize]

/-- A finished block has more bytes than tuples. -/
theorem length_le_of_holds {d : Draft} {tuples : List Tuple} (h : d.Holds tuples) :
    tuples.length ≤ d.build.length := by
  have hlength : d.offsets.length = tuples.length := length_of_holds h
  rw [length_build, size, hlength, Block.numberSize]
  omega

theorem isEmpty_of_holds {d : Draft} {tuples : List Tuple} (h : d.Holds tuples) :
    d.isEmpty = tuples.isEmpty := by
  have hlength := length_of_holds h
  rw [length] at hlength
  cases tuples with
  | nil => simpa [isEmpty] using hlength
  | cons t rest =>
    rw [isEmpty, List.isEmpty_cons, List.isEmpty_eq_false_iff]
    rintro hnil
    simp [hnil] at hlength

/-- A kept tuple that is taken in comes last. -/
theorem holds_add {d d' : Draft} {tuples : List Tuple} {t : Tuple} (h : d.Holds tuples)
    (ht : d.codec.Keeps t) (hadd : d.add t = (d', .ok true)) : d'.Holds (tuples ++ [t]) := by
  cases added_of_add hadd with
  | stored _ _ hlow =>
    refine ⟨?_, ?_, fun o ho => ?_, fun u hu => ?_⟩
    · rw [h.data, Codec.images_append, Codec.images_singleton]
    · simp only [h.offsets, Codec.starts_append, h.data, Nat.zero_add]
    · rcases List.mem_append.1 ho with ho | ho
      · exact h.low o ho
      · rwa [List.mem_singleton.1 ho]
    · rcases List.mem_append.1 hu with hu | hu
      · exact h.kept u hu
      · rwa [List.mem_singleton.1 hu]

/-- Tuples that a draft holds begin below 2 ^ 32. -/
theorem lines_of_holds {d : Draft} {tuples : List Tuple} (h : d.Holds tuples) :
    d.codec.Lines tuples where
  stores t ht := Codec.stores_of_keeps (h.kept t ht)
  low front last hlast := by
    refine h.low _ ?_
    rw [h.offsets, hlast, Codec.starts_append, Nat.zero_add]
    exact List.mem_append_right _ (List.mem_singleton_self _)

end Draft

namespace Block

/-- The tuple at an offset of the images of tuples. -/
theorem read_images {codec : Codec} {tuples : List Tuple} (hkept : ∀ t ∈ tuples, codec.Keeps t)
    (before : Bytes) (hroom : (before ++ codec.images tuples).length < Numeral.word) :
    ∀ (i : Nat) (t : Tuple), tuples[i]? = some t →
      ∃ o, (codec.starts before.length tuples)[i]? = some o ∧
      codec.read (before ++ codec.images tuples) o = .ok t := by
  induction tuples generalizing before with
  | nil => simp
  | cons u rest ih =>
    rw [List.forall_mem_cons] at hkept
    have hsplit : before ++ codec.images (u :: rest) =
        before ++ codec.image u ++ codec.images rest := by
      simp [Codec.images, List.append_assoc]
    intro i t hi
    rw [hsplit] at hroom ⊢
    cases i with
    | zero =>
      obtain rfl : u = t := by simpa using hi
      exact ⟨before.length, rfl, Codec.read_image hkept.1 before _ hroom⟩
    | succ i =>
      have hrest := ih hkept.2 (before ++ codec.image u) hroom i t hi
      rwa [List.length_append] at hrest

theorem mapM_eq_ok {α β : Type} {f : α → Outcome β} {xs : List α} {ys : List β}
    (hlength : xs.length = ys.length)
    (h : ∀ (i : Nat) (y : β), ys[i]? = some y → ∃ x, xs[i]? = some x ∧ f x = .ok y) :
    xs.mapM f = .ok ys := by
  induction xs generalizing ys with
  | nil =>
    cases ys with
    | nil => rfl
    | cons y ys => simp at hlength
  | cons x xs ih =>
    cases ys with
    | nil => simp at hlength
    | cons y ys =>
      obtain ⟨x', hx, hfirst⟩ := h 0 y rfl
      obtain rfl : x = x' := by simpa using hx
      have hrest := ih (Nat.succ.inj hlength) fun i z hz => h (i + 1) z hz
      rw [List.mapM_cons, hfirst, Outcome.bind_eq_ok_iff]
      exact ⟨y, rfl, Outcome.bind_eq_ok_iff.2 ⟨ys, hrest, rfl⟩⟩

/-- A block that holds tuples: they are read in order, and each at its own offset. -/
structure Shows (b : Block) (codec : Codec) (tuples : List Tuple) : Prop where
  length : b.offsets.length = tuples.length
  read : ∀ (i : Nat) (t : Tuple), tuples[i]? = some t →
    ∃ o, b.offsets[i]? = some o ∧ codec.read b.data o = .ok t

theorem tuples_of_shows {b : Block} {codec : Codec} {tuples : List Tuple}
    (h : b.Shows codec tuples) : b.tuples codec = .ok tuples :=
  mapM_eq_ok h.length h.read

/-- A finished block is read as the data and the offsets of its draft, where these are numbers of
four bytes and lead into the data, and so is their number. -/
theorem decode_build_eq {d : Draft} (hlow : ∀ o ∈ d.offsets, o < 2 ^ 32)
    (hinside : ∀ o ∈ d.offsets, o ≤ d.data.length) (hcount : d.offsets.length < 2 ^ 32) :
    decode d.build = .ok ⟨d.data, d.offsets⟩ := by
  have hrow := Draft.length_row d
  have hbody : d.body.length = d.data.length + d.offsets.length * numberSize + numberSize := by
    simp only [Draft.body, List.length_append, hrow, Bytes.length_ofNat]
  have hbuild : d.build.length = d.body.length + numberSize := by
    simp only [Draft.build, List.length_append, Bytes.length_ofNat]
  have hchecksum : Bytes.natAt d.build d.body.length numberSize =
      (Crc32.checksum d.body).toNat :=
    Bytes.natAt_eq d.body [] (by simp [Draft.build]) rfl (UInt32.toNat_lt _)
  have hcountAt : Bytes.natAt d.build (d.data.length + d.offsets.length * numberSize) numberSize =
      d.offsets.length := by
    refine Bytes.natAt_eq (d.data ++ d.offsets.flatMap (Bytes.ofNat numberSize))
      (Bytes.ofNat numberSize (Crc32.checksum d.body).toNat) ?_ ?_ hcount
    · rw [Draft.build, Draft.body]
    · rw [List.length_append, hrow]
  have hoffsets : offsetsAt d.build d.data.length d.offsets.length = d.offsets := by
    refine List.ext_getElem (by simp [offsetsAt]) fun i hi hi' => ?_
    simp only [offsetsAt, List.getElem_map, List.getElem_range]
    refine Bytes.natAt_flatMap d.data (Bytes.ofNat numberSize d.offsets.length ++
      Bytes.ofNat numberSize (Crc32.checksum d.body).toNat) (List.getElem?_eq_getElem hi') ?_ rfl
      (hlow _ (List.getElem_mem hi'))
    simp only [Draft.build, Draft.body, List.append_assoc]
  have hany : d.offsets.any (d.data.length < ·) = false := by
    rw [List.any_eq_false]
    intro o ho
    simpa using hinside o ho
  have htakeBody : d.build.take d.body.length = d.body := by
    rw [Draft.build, List.take_left]
  have htakeData : d.build.take d.data.length = d.data := by
    rw [Draft.build, Draft.body, List.append_assoc, List.append_assoc, List.take_left]
  have hbodySize : d.build.length - numberSize = d.body.length := by omega
  have hcounted : d.body.length - numberSize =
      d.data.length + d.offsets.length * numberSize := by omega
  have hdataSize : d.data.length + d.offsets.length * numberSize -
      d.offsets.length * numberSize = d.data.length := by omega
  simp only [decode, hbodySize, hcounted, hchecksum, hcountAt, htakeBody, hdataSize, hoffsets,
    hany, htakeData]
  rw [if_neg (by simp only [trailerSize, numberSize] at *; omega), if_neg (by simp),
    if_neg (by omega)]
  rfl

/-- A finished block is read back, and shows the tuples of its draft. -/
theorem decode_build {d : Draft} {tuples : List Tuple} (h : d.Holds tuples)
    (hcount : tuples.length < 2 ^ 32) (hroom : d.build.length < Numeral.word) :
    ∃ b, decode d.build = .ok b ∧ b.Shows d.codec tuples := by
  have hlength : d.offsets.length = tuples.length := Draft.length_of_holds h
  have hinside : ∀ o ∈ d.offsets, o ≤ d.data.length := by
    intro o ho
    rw [h.offsets] at ho
    have hle := Codec.le_of_mem_starts ho
    rwa [Nat.zero_add, ← h.data] at hle
  refine ⟨_, decode_build_eq h.low hinside (hlength ▸ hcount), hlength, ?_⟩
  have hdata : d.data.length < Numeral.word := by
    simp only [Draft.build, Draft.body, List.length_append] at hroom
    omega
  rw [h.offsets, h.data]
  rw [h.data] at hdata
  exact read_images h.kept [] hdata

end Block

end Strata
