import Strata.Proofs.Component.File
import Strata.Proofs.Component.Packing
import Strata.Proofs.Varint

/-!
# Files beyond their widths

The block index gives four bytes to the length of a key and to the number of tuples of a block, and
a writer does not look whether they fit. What it makes of more is a file that is not opened: the
rest of a long key is read as entries, and the tuples of the block index are fewer than the footer
tells. Nor is a file opened whose range is inverted. A block, however, is bounded: no tuple is taken
in that would begin beyond 4 GiB.
-/

namespace Strata

namespace Writer

variable {w v : Writer} {format : Format} {filter : Bloom.Filter} {range : Range} {t : Tuple}

/-- What an opened file comes to depends on its footer and its block index. -/
theorem parts_fileWith (w : Writer) (filter : Bloom.Filter) (range : Range) :
    let file := w.fileWith filter range
    let f := w.footer filter range
    Footer.size ≤ file.length ∧ file.drop (file.length - Footer.size) = f.encode ∧
      f.fits (file.length - Footer.size) = true ∧
      Bytes.slice file f.indexOffset f.indexSize = w.entries.flatMap IndexEntry.encode :=
  index_parts rfl rfl rfl rfl rfl

/-- A file with an inverted range is not opened. -/
theorem ofBytes_of_inverted (hmin : range.min < Numeral.word) (h : range.max < range.min)
    (path : String) (codec : Codec) (keyFields : Nat) :
    Archive.ofBytes path codec keyFields (w.fileWith filter range) =
      .error (.error (.damage (.invertedRange range.min range.max))) := by
  obtain ⟨hlong, hdrop, -, -⟩ := w.parts_fileWith filter range
  have hfooter : Footer.decode (w.footer filter range).encode = _ :=
    Footer.decode_of_inverted hmin h
  simp only [Archive.ofBytes, if_neg (Nat.not_lt.2 hlong), hdrop, hfooter]
  rfl

theorem fits_footer (hordered : range.min ≤ range.max) (hmax : range.max < Numeral.word)
    (htuples : w.tuples < Numeral.word) (hroom : (w.fileWith filter range).length < Numeral.word) :
    (w.footer filter range).Fits := by
  have hlength := w.length_fileWith filter range
  simp only [Numeral.word] at hroom
  refine ⟨?_, ?_, ?_, ?_, htuples, hmax, hordered⟩ <;> dsimp only [footer] <;> omega

/-- Where the block index is not read, the file is not opened. -/
theorem ofBytes_of_index {e : Error} (hfits : (w.footer filter range).Fits)
    (h : IndexEntry.decodeAll (w.entries.flatMap IndexEntry.encode) = .error e)
    (path : String) (codec : Codec) (keyFields : Nat) :
    Archive.ofBytes path codec keyFields (w.fileWith filter range) = .error (.error e) := by
  obtain ⟨hlong, hdrop, hinside, hslice⟩ := w.parts_fileWith filter range
  simp only [Archive.ofBytes, if_neg (Nat.not_lt.2 hlong), hdrop, Footer.decode_encode hfits,
    hinside, hslice, h, Outcome.liftM_eq, Outcome.ofExcept_ok, Outcome.ofExcept_error, bind,
    Except.bind]
  rfl

/-- Where the block index counts other tuples than the footer, the file is not opened. -/
theorem ofBytes_of_miscount {entries : List IndexEntry} (hfits : (w.footer filter range).Fits)
    (h : IndexEntry.decodeAll (w.entries.flatMap IndexEntry.encode) = .ok entries)
    (hword : (entries.map IndexEntry.tuples).sum < Numeral.word)
    (hne : (entries.map IndexEntry.tuples).sum ≠ w.tuples)
    (path : String) (codec : Codec) (keyFields : Nat) :
    Archive.ofBytes path codec keyFields (w.fileWith filter range) =
      .error (.error (.damage (.tupleCount path w.tuples
        (entries.map IndexEntry.tuples).sum))) := by
  obtain ⟨hlong, hdrop, hinside, hslice⟩ := w.parts_fileWith filter range
  simp only [Archive.ofBytes, if_neg (Nat.not_lt.2 hlong), hdrop, Footer.decode_encode hfits,
    hinside, hslice, h, Outcome.liftM_eq, Outcome.ofExcept_ok, bind, Except.bind]
  rw [Outcome.ofWord_eq_ok_iff.2 ⟨hword, rfl⟩]
  simp only [footer, hne, ne_eq, not_false_eq_true, if_true]
  rfl

/-- No key is below the empty one. -/
theorem compare_nil_ne_lt (key : Bytes) : compare key [] ≠ .lt := by
  cases key with
  | nil => decide
  | cons b rest => exact fun h => Ordering.noConfusion (show Ordering.gt = .lt from h)

/-- A first tuple is taken into the draft, whatever its size. -/
theorem add_first (hstart : start format = .ok w) (ht : format.codec.Stores t) :
    ∃ v, w.add t = (v, .ok ()) ∧ v.format = format ∧ v.tuples = 1 ∧ v.written = [] ∧
      v.entries = [] ∧ v.lastKey = format.keyOf t ∧ v.draft =
        ⟨format.codec, format.blockSize, format.codec.image t, [0]⟩ := by
  obtain rfl := eq_of_start hstart
  have hroom : ¬ Draft.Full ⟨format.codec, format.blockSize, [], []⟩
      (format.codec.image t).length := Draft.not_full_iff.2 (.inl rfl)
  have hadded := (Draft.Added.stored ht hroom (Nat.two_pow_pos 32)).eq_add
  exact ⟨_, add_eq_of_draft (compare_nil_ne_lt _) hadded, rfl, rfl, rfl, rfl, rfl, rfl⟩

/-- A first tuple makes a block of its own. -/
theorem addAll_single (hstart : start format = .ok w) (ht : format.codec.Stores t) :
    ∃ v, w.addAll [t] = (v, .ok ()) ∧ v.closeBlock.format = format ∧ v.closeBlock.tuples = 1 ∧
      v.closeBlock.written.length = (format.codec.image t).length + 12 ∧
      v.closeBlock.entries =
        [⟨format.keyOf t, 0, (format.codec.image t).length + 12, 1⟩] := by
  obtain ⟨v, hadd, hformat, htuples, hwritten, hentries, hlast, hdraft⟩ := add_first hstart ht
  have hempty : v.draft.isEmpty = false := by
    rw [hdraft]
    rfl
  have hbuild : v.draft.build.length = (format.codec.image t).length + 12 := by
    rw [Draft.length_build, hdraft]
    rfl
  have hlength : v.draft.length = 1 := by
    rw [hdraft]
    rfl
  refine ⟨v, addAll_cons hadd [], ?_⟩
  rw [closeBlock, hempty]
  refine ⟨hformat, htuples, ?_, ?_⟩
  · simp [hwritten, hbuild]
  · simp [hwritten, hentries, hlast, hbuild, hlength]

/-- Behind a tuple of 4 GiB the same one is refused, although the block has room for it. -/
theorem addAll_of_large {n : Nat} (hsize : format.blockSize < Bytes.limit)
    (hcodec : format.codec = .plain [.varying, .varying]) (hlarge : 2 ^ 32 ≤ n)
    (hsmall : n < 2 ^ 35) (hroom : 2 * n + 32 ≤ format.blockSize) :
    ∃ w v, start format = .ok w ∧
      w.addAll [[[97], List.replicate n 0], [[97], List.replicate n 0]] =
        (v, .error (.error (.damage .blockTooLarge))) := by
  have hstores : format.codec.Stores [[97], List.replicate n 0] := by
    rw [hcodec]
    exact Codec.stores_of_keeps (Codec.keeps_plain (.cons trivial (.cons trivial .nil)))
  have himage : (format.codec.image [[97], List.replicate n 0]).length = n + Varint.size n + 3 := by
    have hone : Varint.size 1 = 1 := by rw [Varint.size, if_pos (by decide)]
    simp [hcodec, Codec.image_plain, Stored.length_encode, Stored.slots, Stored.bitmapSize,
      Tuple.payload, hone]
    omega
  have hvarint : Varint.size n ≤ 5 := Varint.size_le_iff.2 hsmall
  generalize ([[97], List.replicate n 0] : Tuple) = t at hstores himage ⊢
  obtain ⟨v, hadd, hformat, -, -, -, hlast, hdraft⟩ := add_first (start_of_lt hsize) hstores
  have hroom' : ¬ v.draft.Full (format.codec.image t).length := by
    rw [Draft.not_full_iff, Draft.size, hdraft]
    refine .inr ?_
    simp only [List.length_singleton, Block.numberSize, Block.trailerSize]
    omega
  have hrequired : v.draft.codec.required t = .ok (format.codec.image t).length := by
    rw [hdraft, hstores.required]
  have hdata : 2 ^ 32 ≤ v.draft.data.length := by
    rw [hdraft]
    show 2 ^ 32 ≤ (format.codec.image t).length
    omega
  have hrefused := (Draft.Added.tooLarge hrequired hroom' hdata).eq_add
  have hbelow : compare (v.format.keyOf t) v.lastKey ≠ .lt := by
    have hsame : compare (format.keyOf t) (format.keyOf t) = .eq := Std.ReflCmp.compare_self
    rw [hformat, hlast, hsame]
    decide
  have hplace : v.place t = (v, .error (.error (.damage .blockTooLarge))) := by
    simp only [place, hrefused]
  refine ⟨_, v, start_of_lt hsize, ?_⟩
  rw [addAll_cons hadd, addAll]
  simp only [add, if_neg hbelow, hplace]

/-- A writer with nothing but tuples without fields, all in its first block. -/
structure Vacant (w : Writer) (count : Nat) : Prop where
  draft : w.draft = .vacant w.format.blockSize count
  written : w.written = []
  entries : w.entries = []
  tuples : w.tuples = count
  lastKey : w.lastKey = []

theorem Vacant.add {count : Nat} (h : w.Vacant count)
    (hroom : (count + 1) * Block.numberSize + Block.trailerSize ≤ w.format.blockSize) :
    ∃ v, w.add [] = (v, .ok ()) ∧ v.format = w.format ∧ v.Vacant (count + 1) := by
  have hdraft : w.draft.add [] = (.vacant w.format.blockSize (count + 1), .ok true) := by
    rw [h.draft, Draft.add_vacant hroom]
  have hadd := add_eq_of_draft (h.lastKey ▸ compare_nil_ne_lt _) hdraft
  refine ⟨_, hadd, rfl, ⟨rfl, h.written, h.entries, congrArg (· + 1) h.tuples, ?_⟩⟩
  simp [Format.keyOf, Tuple.keyBytes]

theorem Vacant.addAll {count : Nat} (h : w.Vacant count) (more : Nat)
    (hroom : (count + more) * Block.numberSize + Block.trailerSize ≤ w.format.blockSize) :
    ∃ v, w.addAll (List.replicate more []) = (v, .ok ()) ∧ v.format = w.format ∧
      v.Vacant (count + more) := by
  induction more generalizing w count with
  | zero => exact ⟨w, rfl, rfl, h⟩
  | succ more ih =>
    obtain ⟨u, hadd, hformat, hu⟩ := h.add (by
      simp only [Block.numberSize, Block.trailerSize] at hroom ⊢
      omega)
    obtain ⟨v, haddAll, hformat', hv⟩ := ih hu (by
      rwa [hformat, Nat.add_assoc, Nat.add_comm 1])
    refine ⟨v, ?_, hformat'.trans hformat, by rwa [Nat.add_assoc, Nat.add_comm 1] at hv⟩
    rw [List.replicate_succ, addAll_cons hadd, haddAll]

theorem Vacant.closeBlock {count : Nat} (h : w.Vacant count) (hpos : 0 < count) :
    w.closeBlock.format = w.format ∧ w.closeBlock.tuples = count ∧
      w.closeBlock.written.length = count * 4 + 8 ∧
      w.closeBlock.entries = [⟨[], 0, count * 4 + 8, count⟩] := by
  have hoffsets : w.draft.offsets = List.replicate count 0 := by
    rw [h.draft]
    rfl
  have hempty : w.draft.isEmpty = false := by
    rw [Draft.isEmpty, hoffsets]
    simpa using Nat.ne_of_gt hpos
  have hlength : w.draft.length = count := by
    rw [Draft.length, hoffsets, List.length_replicate]
  have hbuild : w.draft.build.length = count * 4 + 8 := by
    rw [Draft.length_build, Draft.size, hoffsets, h.draft, List.length_replicate]
    simp [Draft.vacant, Block.numberSize, Block.trailerSize]
  rw [Writer.closeBlock, hempty]
  refine ⟨rfl, h.tuples, ?_, ?_⟩
  · simp [h.written, hbuild]
  · simp [h.written, h.entries, h.lastKey, hbuild, hlength]

/-- A byte that is changed among the blocks leaves filter, block index and footer. -/
theorem set_fileWith {i : Nat} (b : UInt8) (hi : i < w.written.length) :
    (w.fileWith filter range).set i b =
      ({ w with written := w.written.set i b } : Writer).fileWith filter range := by
  simp only [fileWith, footer, List.length_set, List.append_assoc]
  exact List.set_append_left _ _ hi

/-- A writer makes a file of tuples that is not opened, nor is it opened when a byte among its
blocks is changed. The cause may name the path. -/
def Unopened (format : Format) (tuples : List Tuple) (range : Range) (cause : String → Damage) :
    Prop :=
  ∃ w v serial name file c, start format = .ok w ∧ w.addAll tuples = (v, .ok ()) ∧
    v.finish serial range name = .ok (file, c) ∧ 0 < v.closeBlock.written.length ∧
    ∀ path, Archive.ofBytes path format.codec format.keyFields file =
        .error (.error (.damage (cause path))) ∧
      ∀ i b, i < v.closeBlock.written.length →
        Archive.ofBytes path format.codec format.keyFields (file.set i b) =
          .error (.error (.damage (cause path)))

/-- Whether a file is opened depends on the number of bytes of its blocks, not on these bytes. -/
theorem unopened_of_written {tuples : List Tuple} {cause : String → Damage}
    (hrate : Bloom.validRate format.rate = true) (hstart : start format = .ok w)
    (hadd : w.addAll tuples = (v, .ok ())) (hformat : v.closeBlock.format = format)
    (hwritten : 0 < v.closeBlock.written.length)
    (hopen : ∀ filter written, written.length = v.closeBlock.written.length → ∀ path,
      Archive.ofBytes path format.codec format.keyFields
        (({ v.closeBlock with written } : Writer).fileWith filter range) =
          .error (.error (.damage (cause path)))) :
    Unopened format tuples range cause := by
  obtain ⟨filter, hfilter⟩ := Bloom.Filter.exists_ofKeys (hformat.symm ▸ hrate) v.closeBlock.keys
  refine ⟨w, v, 0, "", _, _, hstart, hadd, finish_eq_ok_iff.2 ⟨filter, hfilter, rfl, rfl⟩,
    hwritten, fun path => ⟨hopen filter _ rfl path, fun i b hi => ?_⟩⟩
  rw [set_fileWith b hi]
  exact hopen filter _ List.length_set path

/-- A file of a tuple with an inverted range. -/
theorem unopened_of_inverted (hrate : Bloom.validRate format.rate = true)
    (hsize : format.blockSize < Bytes.limit) (ht : format.codec.Stores t)
    (hmin : range.min < Numeral.word) (hinverted : range.max < range.min) :
    Unopened format [t] range fun _ => .invertedRange range.min range.max := by
  have hstart := start_of_lt hsize
  obtain ⟨v, hadd, hformat, -, hwritten, -⟩ := addAll_single hstart ht
  exact unopened_of_written hrate hstart hadd hformat (by omega) fun _ _ _ path =>
    ofBytes_of_inverted hmin hinverted path _ _

/-- The key of a field of `length` bytes 255 is that field behind the length, which takes five bytes
where the key has 2 ^ 32. -/
theorem long_key {length : Nat} (h : length + 5 = 2 ^ 32) :
    (Varint.encode length).length = 5 ∧ Varint.encode length ++ List.replicate length 255 =
      (Varint.encode length ++ List.replicate 15 255) ++ Bytes.ofNat 4 (2 ^ 32 - 1) ++
        List.replicate (length - 19) 255 := by
  constructor
  · have hle := @Varint.size_le_iff length 4
    have hgt := @Varint.size_le_iff length 3
    rw [Varint.length_encode]
    omega
  · have hnumber : Bytes.ofNat 4 (2 ^ 32 - 1) = List.replicate 4 255 := rfl
    rw [hnumber, List.append_assoc, List.append_assoc, List.replicate_append_replicate,
      List.replicate_append_replicate]
    congr 2
    omega

/-- A file of a tuple with a key of 2 ^ 32 bytes, those behind the length all 255. -/
theorem unopened_of_long {length : Nat} (hrate : Bloom.validRate format.rate = true)
    (hsize : format.blockSize < Bytes.limit) (hcodec : format.codec = .plain [.varying])
    (hkeyFields : format.keyFields = 1) (hlength : length + 5 = 2 ^ 32)
    (hordered : range.min ≤ range.max) (hmax : range.max < Numeral.word) :
    Unopened format [[List.replicate length 255]] range fun _ => .entryTruncated := by
  obtain ⟨hvarint, hsplit⟩ := long_key hlength
  have hstores : format.codec.Stores [List.replicate length 255] := by
    rw [hcodec]
    exact Codec.stores_of_keeps (Codec.keeps_plain (.cons trivial .nil))
  have himage : (format.codec.image [List.replicate length 255]).length = length + 6 := by
    simp [hcodec, Codec.image_plain, Stored.length_encode, Stored.slots, Stored.bitmapSize,
      Tuple.payload, hvarint]
    omega
  have hkey : format.keyOf [List.replicate length 255] =
      Varint.encode length ++ List.replicate length 255 := by
    simp [Format.keyOf, hkeyFields, Tuple.keyBytes]
  have hstart := start_of_lt hsize
  obtain ⟨v, hadd, hformat, htuples, hwritten, hentries⟩ := addAll_single hstart hstores
  refine unopened_of_written hrate hstart hadd hformat (by omega) fun filter written hsame path =>
    ofBytes_of_index ?_ ?_ path _ _
  · apply fits_footer hordered hmax
    · show v.closeBlock.tuples < Numeral.word
      rw [htuples]
      decide
    · refine Nat.lt_trans (length_fileWith_lt filter range ?_) (by decide)
      show written.length + (v.closeBlock.entries.flatMap IndexEntry.encode).length < 2 ^ 62
      simp only [hsame, hwritten, hentries, List.flatMap_singleton, IndexEntry.length_encode, hkey,
        List.length_append, List.length_replicate, hvarint, himage, IndexEntry.fixedSize]
      omega
  · show IndexEntry.decodeAll (v.closeBlock.entries.flatMap IndexEntry.encode) = _
    rw [hentries, List.flatMap_singleton]
    refine IndexEntry.decodeAll_of_long (hkey.trans hsplit) ?_ ?_ (by decide) (by decide)
    · rw [List.length_append, hvarint, List.length_replicate]
    · rw [hkey, List.length_append, hvarint, List.length_replicate, Nat.add_comm, hlength]

/-- A file of a multiple of 2 ^ 32 tuples without fields, all in one block. -/
theorem unopened_of_vacant {count : Nat} (hrate : Bloom.validRate format.rate = true)
    (hsize : format.blockSize < Bytes.limit) (hcodec : format.codec = .plain [])
    (hroom : count * Block.numberSize + Block.trailerSize ≤ format.blockSize)
    (hdvd : 2 ^ 32 ∣ count) (hpos : 0 < count)
    (hordered : range.min ≤ range.max) (hmax : range.max < Numeral.word) :
    Unopened format (List.replicate count []) range fun path => .tupleCount path count 0 := by
  have hstart := start_of_lt hsize
  have hvacant : Vacant { format, draft := ⟨format.codec, format.blockSize, [], []⟩ } 0 :=
    ⟨by rw [hcodec]; rfl, rfl, rfl, rfl, rfl⟩
  obtain ⟨v, hadd, hformat, hv⟩ := hvacant.addAll count (by rwa [Nat.zero_add])
  rw [Nat.zero_add] at hv
  obtain ⟨hclosed, htuples, hwritten, hentries⟩ := hv.closeBlock hpos
  simp only [Block.numberSize, Block.trailerSize, Bytes.limit] at hroom hsize
  have hread : IndexEntry.decodeAll (v.closeBlock.entries.flatMap IndexEntry.encode) =
      .ok [⟨[], 0, count * 4 + 8, 0⟩] := by
    have hencode := IndexEntry.encode_mod ⟨[], 0, count * 4 + 8, count⟩
    rw [Nat.mod_eq_zero_of_dvd hdvd] at hencode
    rw [hentries, List.flatMap_singleton, ← hencode]
    refine IndexEntry.decodeAll_eq_ok_iff.2 ⟨?_, by rw [List.flatMap_singleton]⟩
    rw [List.forall_mem_singleton]
    refine ⟨Nat.two_pow_pos 32, Nat.two_pow_pos 64, ?_, Nat.two_pow_pos 32⟩
    show count * 4 + 8 < 2 ^ 64
    omega
  refine unopened_of_written hrate hstart hadd (hclosed.trans hformat) (by omega)
    fun filter written hsame path => ?_
  have hfits : (({ v.closeBlock with written } : Writer).footer filter range).Fits := by
    apply fits_footer hordered hmax
    · show v.closeBlock.tuples < 2 ^ 64
      omega
    · have hsmall := filter.length_encode_lt
      rw [length_fileWith]
      simp only [hsame, hwritten, hentries, List.flatMap_singleton, IndexEntry.length_encode,
        IndexEntry.fixedSize, List.length_nil, Footer.size, Numeral.word]
      omega
  have hopen := ofBytes_of_miscount hfits hread (Nat.two_pow_pos 64) (by
    show 0 ≠ v.closeBlock.tuples
    omega) path format.codec format.keyFields
  rw [hopen]
  simp only [htuples]
  rfl

end Writer

end Strata
