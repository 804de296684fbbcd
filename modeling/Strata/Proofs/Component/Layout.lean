import Strata.Component.Archive
import Strata.Proofs.Bytes
import Strata.Proofs.Crc32

/-!
# Blocks side by side

The last bytes of a block are the checksum of those in front, so a block in which one byte is
changed, be it one of the checksum, is not read any more. The blocks of a component file lie one
behind the other without a gap, so every byte in front of the bloom filter belongs to one of them,
and to no other.
-/

namespace Strata

namespace Bytes

/-- A number of a fixed width determines its bytes. -/
theorem toNat_inj {bs cs : Bytes} (hlength : bs.length = cs.length) :
    toNat bs = toNat cs ↔ bs = cs := by
  constructor
  · intro h
    induction bs generalizing cs with
    | nil => exact (List.eq_nil_of_length_eq_zero hlength.symm).symm
    | cons b bs ih =>
      cases cs with
      | nil => contradiction
      | cons c cs =>
        have hb := b.toNat_lt
        have hc := c.toNat_lt
        simp only [toNat] at h
        have hfirst : b = c := UInt8.toNat.inj (by omega)
        have hrest : bs = cs := ih (Nat.succ.inj hlength) (by omega)
        rw [hfirst, hrest]
  · intro h
    rw [h]

/-- A change in front of a stretch is not seen in it. -/
theorem slice_set_of_lt {buf : Bytes} {start length i : Nat} (b : UInt8) (h : i < start) :
    slice (buf.set i b) start length = slice buf start length := by
  rw [slice, List.drop_set_of_lt h, slice]

/-- A change behind a stretch is not seen in it. -/
theorem slice_set_of_le {buf : Bytes} {start length i : Nat} (b : UInt8)
    (h : start + length ≤ i) : slice (buf.set i b) start length = slice buf start length := by
  rw [slice, List.drop_set, if_neg (by omega), List.take_set_of_le (by omega), slice]

/-- A change inside a stretch is one of the stretch. -/
theorem slice_set {buf : Bytes} {start i : Nat} (length : Nat) (b : UInt8) (h : start ≤ i) :
    slice (buf.set i b) start length = (slice buf start length).set (i - start) b := by
  rw [slice, List.drop_set, if_neg (by omega), List.take_set, slice]

end Bytes

namespace Block

/-- A block that ends with the checksum of what is in front of it. -/
structure Sealed (raw : Bytes) : Prop where
  trailer : trailerSize ≤ raw.length
  checksum : Bytes.natAt raw (raw.length - numberSize) numberSize =
    (Crc32.checksum (raw.take (raw.length - numberSize))).toNat

theorem sealed_build (d : Draft) : Sealed d.build := by
  have hbody : numberSize ≤ d.body.length := by
    simp only [Draft.body, List.length_append, Bytes.length_ofNat]
    omega
  have hlength : d.build.length = d.body.length + numberSize := by
    simp [Draft.build]
  constructor
  · simp only [hlength, trailerSize, numberSize] at hbody ⊢
    omega
  · rw [hlength, Nat.add_sub_cancel, Draft.build, List.take_left]
    exact Bytes.natAt_eq d.body [] (by simp) rfl (UInt32.toNat_lt _)

/-- A change of one byte breaks the seal: either the bytes in front have another checksum then, or
another checksum is stored behind them. -/
theorem not_sealed_set {raw : Bytes} {i : Nat} {b : UInt8} (h : Sealed raw) (hi : i < raw.length)
    (hb : raw[i] ≠ b) : ¬ Sealed (raw.set i b) := by
  intro hset
  have hchecksum := hset.checksum
  rw [List.length_set] at hchecksum
  by_cases hbody : i < raw.length - numberSize
  · have hstored : Bytes.natAt (raw.set i b) (raw.length - numberSize) numberSize =
        Bytes.natAt raw (raw.length - numberSize) numberSize :=
      congrArg Bytes.toNat (Bytes.slice_set_of_lt b hbody)
    rw [hstored, h.checksum, List.take_set, UInt32.toNat_inj] at hchecksum
    refine Crc32.checksum_set_ne ?_ ?_ hchecksum.symm
    · rw [List.length_take]
      omega
    · rwa [List.getElem_take]
  · have hfront : (raw.set i b).take (raw.length - numberSize) =
        raw.take (raw.length - numberSize) := List.take_set_of_le (by omega)
    rw [hfront, ← h.checksum, Bytes.natAt, Bytes.natAt, Bytes.slice_set _ b (by omega),
      Bytes.toNat_inj List.length_set] at hchecksum
    have htrailer := h.trailer
    have hbyte := congrArg (fun bs => bs[i - (raw.length - numberSize)]?) hchecksum
    simp only [trailerSize, numberSize] at hbyte htrailer hbody
    rw [List.getElem?_set_self (by rw [Bytes.length_slice]; omega), Bytes.slice,
      List.getElem?_take_of_lt (by omega), List.getElem?_drop, Nat.add_sub_cancel' (by omega),
      List.getElem?_eq_getElem hi] at hbyte
    exact hb (Option.some.inj hbyte).symm

/-- Bytes that are long enough but not sealed are told to have a wrong checksum. -/
theorem decode_of_not_sealed {raw : Bytes} (htrailer : trailerSize ≤ raw.length)
    (h : ¬ Sealed raw) :
    ∃ stored computed, decode raw = .error (.damage (.blockChecksum stored computed)) := by
  have hdiffer : Bytes.natAt raw (raw.length - numberSize) numberSize ≠
      (Crc32.checksum (raw.take (raw.length - numberSize))).toNat :=
    fun hsame => h ⟨htrailer, hsame⟩
  exact ⟨_, _, by simp only [decode, if_neg (Nat.not_lt.2 htrailer), if_pos hdiffer]; rfl⟩

end Block

/-- Sealed blocks one behind the other, each with an entry that tells where it lies. -/
inductive Tiled : List IndexEntry → Bytes → Prop
  | nil : Tiled [] []
  | snoc {entries : List IndexEntry} {written : Bytes} (h : Tiled entries written)
      {e : IndexEntry} {block : Bytes} (hsealed : Block.Sealed block)
      (hoffset : e.offset = written.length) (hsize : e.size = block.length) :
      Tiled (entries ++ [e]) (written ++ block)

namespace Tiled

variable {entries : List IndexEntry} {written : Bytes} {i : Nat} {e f : IndexEntry}

/-- A byte in the stretch that an entry tells. -/
def Covers (e : IndexEntry) (i : Nat) : Prop := e.offset ≤ i ∧ i < e.offset + e.size

theorem end_le (h : Tiled entries written) (he : e ∈ entries) :
    e.offset + e.size ≤ written.length := by
  induction h with
  | nil => contradiction
  | @snoc entries written h last block hsealed hoffset hsize ih =>
    rw [List.length_append]
    rcases List.mem_append.1 he with he | he
    · exact Nat.le_trans (ih he) (Nat.le_add_right ..)
    · rw [List.mem_singleton.1 he]
      omega

/-- The block of every entry is sealed. -/
theorem sealed_slice (h : Tiled entries written) (he : e ∈ entries) (rest : Bytes) :
    Block.Sealed (Bytes.slice (written ++ rest) e.offset e.size) := by
  induction h generalizing rest with
  | nil => contradiction
  | @snoc entries written h last block hsealed hoffset hsize ih =>
    rcases List.mem_append.1 he with he | he
    · rw [List.append_assoc]
      exact ih he (block ++ rest)
    · rw [List.mem_singleton.1 he, Bytes.slice_eq written rest rfl hoffset hsize]
      exact hsealed

/-- Every byte belongs to a block. -/
theorem exists_covers (h : Tiled entries written) (hi : i < written.length) :
    ∃ e ∈ entries, Covers e i := by
  induction h with
  | nil => contradiction
  | @snoc entries written h last block hsealed hoffset hsize ih =>
    rw [List.length_append] at hi
    by_cases hfront : i < written.length
    · obtain ⟨e, he, hcovers⟩ := ih hfront
      exact ⟨e, List.mem_append_left _ he, hcovers⟩
    · exact ⟨last, by simp, by omega, by omega⟩

/-- No byte belongs to two blocks. -/
theorem eq_of_covers (h : Tiled entries written) (he : e ∈ entries) (hf : f ∈ entries)
    (hei : Covers e i) (hfi : Covers f i) : e = f := by
  induction h with
  | nil => contradiction
  | @snoc entries written h last block hsealed hoffset hsize ih =>
    have hbefore : ∀ g ∈ entries, Covers g i → Covers last i → False := by
      intro g hg hgi hlast
      have hend := h.end_le hg
      have hgi := hgi.2
      have hlast := hlast.1
      omega
    rcases List.mem_append.1 he with he | he <;> rcases List.mem_append.1 hf with hf | hf
    · exact ih he hf
    · rw [List.mem_singleton.1 hf] at hfi
      exact absurd hfi (hbefore e he hei)
    · rw [List.mem_singleton.1 he] at hei
      exact absurd hei (hbefore f hf hfi)
    · rw [List.mem_singleton.1 he, List.mem_singleton.1 hf]

end Tiled

end Strata
