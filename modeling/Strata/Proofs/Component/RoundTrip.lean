import Strata.Proofs.Component.Widths

/-!
# Every sequence of tuples has a file

A writer takes in every sequence of tuples whose keys do not descend, tuples with equal keys among
them, and the file it makes gives back just this sequence. Nothing stops it but a block that would
grow beyond the offsets of 32 bits, which takes a block size of 4 GiB at least. A block of several
tuples keeps to the block size, so the number of tuples in it is bounded whatever the tuples are.
-/

namespace Strata

namespace Codec

/-- A codec takes in a tuple with a field to each kind, which it writes into the bytes it asks
for. -/
def Accepts (codec : Codec) (tuple : Tuple) : Prop :=
  tuple.length = codec.kinds.length ∧ ∃ needed n, codec.required tuple = .ok needed ∧
    (codec.write tuple (Bytes.zeros needed) 0).2 = .ok n

theorem keeps_of_accepts {codec : Codec} {tuple : Tuple} (h : codec.Accepts tuple) :
    codec.Keeps tuple := by
  obtain ⟨hlength, needed, n, -, hwrite⟩ := h
  exact keeps_of_write hlength hwrite

end Codec

namespace Draft

/-- A kept tuple finds no room behind others, or would begin where no offset leads, or is put
last. -/
theorem add_spec {d : Draft} {tuples : List Tuple} {t : Tuple} (h : d.Holds tuples)
    (hpacked : d.Packed) (ht : d.codec.Keeps t) :
    (d.add t = (d, .ok false) ∧ tuples ≠ []) ∨
      (d.add t = (d, .error (.error (.damage .blockTooLarge))) ∧
        2 ^ 32 ≤ (d.codec.images tuples).length ∧ 2 ^ 32 ≤ d.capacity) ∨
      ∃ d', d.add t = (d', .ok true) ∧ d'.Packed ∧ d'.capacity = d.capacity := by
  have hstores := Codec.stores_of_keeps ht
  have hempty := isEmpty_of_holds h
  obtain ⟨d', answer, hadd⟩ : ∃ d' answer, d.add t = (d', answer) := ⟨_, _, rfl⟩
  have hadded := added_of_add hadd
  have hpacked' := hadded.packed hpacked
  rw [hadd]
  cases hadded with
  | lacking hlacks => exact absurd hlacks (Codec.not_lacks_of_stores hstores)
  | full _ hfull =>
    refine .inl ⟨rfl, ?_⟩
    rintro rfl
    exact absurd (hempty.symm.trans hfull.1) (by decide)
  | tooLarge _ hroom hlarge =>
    rw [not_full_iff, hempty, List.isEmpty_iff, size] at hroom
    refine .inr (.inl ⟨rfl, h.data ▸ hlarge, ?_⟩)
    rcases hroom with rfl | hroom
    · rw [h.data] at hlarge
      simp [Codec.images] at hlarge
    · omega
  | stored => exact .inr (.inr ⟨_, rfl, hpacked', rfl⟩)
  | turnedAway _ _ _ _ hwrite => exact absurd hstores (Codec.not_stores_of_write hwrite)

end Draft

namespace Writer

/-- No block of several tuples, finished or in the making, exceeds the block size. -/
structure Packed (w : Writer) : Prop where
  capacity : w.draft.capacity = w.format.blockSize
  draft : w.draft.Packed
  entries : ∀ e ∈ w.entries, e.tuples ≤ 1 ∨
    e.tuples * Block.numberSize + Block.trailerSize ≤ w.format.blockSize

theorem packed_closeBlock {w : Writer} (h : w.Packed) : w.closeBlock.Packed := by
  rw [closeBlock]
  split
  · exact h
  · refine ⟨rfl, Draft.packed_nil _ _, fun e he => ?_⟩
    rcases List.mem_append.1 he with he | he
    · exact h.entries e he
    · rw [List.mem_singleton.1 he]
      refine h.draft.imp_right fun hsize => ?_
      have hcapacity := h.capacity
      rw [Draft.size] at hsize
      dsimp only [Draft.length]
      omega

/-- What stops a writer: a block beyond the offsets of 32 bits. -/
abbrev tooLarge : Outcome Unit := .error (.error (.damage .blockTooLarge))

/-- A kept tuple with a key that is not below the last one is taken in, unless it would begin
beyond 4 GiB of a block. -/
theorem add_spec {w : Writer} {blocks : List (List Tuple)} {current : List Tuple} {t : Tuple}
    (h : w.Holds blocks current) (hpacked : w.Packed) (ht : w.format.codec.Keeps t)
    (hkey : (compare w.lastKey (w.format.keyOf t)).isLE) :
    ∃ w' answer, w.add t = (w', answer) ∧
      ((answer = .ok () ∧ w'.Packed ∧ w'.lastKey = w.format.keyOf t) ∨
        (answer = tooLarge ∧ 2 ^ 32 ≤ (w.format.codec.images current).length ∧
          2 ^ 32 ≤ w.format.blockSize)) := by
  have hbelow : ¬ compare (w.format.keyOf t) w.lastKey = .lt := fun hlt =>
    Std.OrientedCmp.not_isLE_of_lt hlt hkey
  have hkept : w.draft.codec.Keeps t := h.codec ▸ ht
  rcases Draft.add_spec h.draft hpacked.draft hkept with
    ⟨hfull, -⟩ | ⟨hlarge, himages, hcapacity⟩ | ⟨d, hadd, hd, hcapacity⟩
  · obtain ⟨closed, -, hclosed, hformat⟩ := holds_closeBlock h
    have hclosedPacked := packed_closeBlock hpacked
    have hkept' : w.closeBlock.draft.codec.Keeps t := by
      rw [hclosed.codec, hformat]
      exact ht
    rcases Draft.add_spec hclosed.draft hclosedPacked.draft hkept' with
      ⟨-, hnonempty⟩ | ⟨-, himages, -⟩ | ⟨d, hadd, hd, hcapacity⟩
    · contradiction
    · simp [Codec.images] at himages
    · have hplace : w.place t = ({ w.closeBlock with draft := d }, .ok ()) := by
        simp only [place, hfull, hadd]
        rfl
      refine ⟨_, _, by simp only [add, if_neg hbelow, hplace]; rfl, .inl ⟨rfl, ?_, rfl⟩⟩
      exact ⟨hcapacity.trans hclosedPacked.capacity, hd, hclosedPacked.entries⟩
  · refine ⟨_, _, by simp only [add, if_neg hbelow, place, hlarge]; rfl, .inr ⟨rfl, ?_, ?_⟩⟩
    · rwa [← h.codec]
    · rwa [← hpacked.capacity]
  · refine ⟨_, _, add_eq_of_draft hbelow hadd, .inl ⟨rfl, ?_, rfl⟩⟩
    exact ⟨hcapacity.trans hpacked.capacity, hd, hpacked.entries⟩

/-- Tuples whose keys do not descend are all taken in, unless a block grows beyond 4 GiB. -/
theorem addAll_spec {w : Writer} {blocks : List (List Tuple)} {current tuples : List Tuple}
    (h : w.Holds blocks current) (hpacked : w.Packed)
    (hkept : ∀ t ∈ tuples, w.format.codec.Keeps t)
    (hord : Tuple.Ordered w.format.keyFields tuples)
    (hlast : ∀ t ∈ tuples, (compare w.lastKey (w.format.keyOf t)).isLE) :
    ∃ v answer, w.addAll tuples = (v, answer) ∧
      ((answer = .ok () ∧ v.Packed) ∨
        (answer = tooLarge ∧ 2 ^ 32 ≤ w.format.blockSize ∧
          2 ^ 32 ≤ (w.format.codec.images (blocks.flatten ++ current ++ tuples)).length)) := by
  induction tuples generalizing w blocks current with
  | nil => exact ⟨w, .ok (), rfl, .inl ⟨rfl, hpacked⟩⟩
  | cons t rest ih =>
    rw [List.forall_mem_cons] at hkept hlast
    obtain ⟨hfirst, hrest⟩ := List.pairwise_cons.1 hord
    obtain ⟨w', answer, hadd, ⟨rfl, hpacked', hlast'⟩ | ⟨rfl, himages, hsize⟩⟩ :=
      add_spec h hpacked hkept.1 hlast.1
    · obtain ⟨hformat, closed, front, hholds, hwhole⟩ := holds_add h hkept.1 hadd
      rw [← hformat] at hkept hrest hfirst
      obtain ⟨v, answer, haddAll, hv⟩ := ih hholds hpacked' hkept.2 hrest (by
        rw [hlast', ← hformat]
        exact hfirst)
      refine ⟨v, answer, by simp only [addAll, hadd, haddAll], ?_⟩
      rwa [hwhole, hformat, List.append_assoc, List.singleton_append] at hv
    · refine ⟨w', tooLarge, by simp only [addAll, hadd], .inr ⟨rfl, hsize, ?_⟩⟩
      rw [Codec.images_append, Codec.images_append, List.length_append, List.length_append]
      omega

/-- Every block that was written has an entry. -/
theorem exists_wrote {codec : Codec} {keyFields : Nat} {written : Bytes} {tuples : List Tuple}
    {entries : List IndexEntry} {blocks : List (List Tuple)}
    (h : List.Forall₂ (Wrote codec keyFields written) entries blocks) (htuples : tuples ∈ blocks) :
    ∃ e ∈ entries, Wrote codec keyFields written e tuples := by
  induction h with
  | nil => simp at htuples
  | @cons e front entries blocks he hrest ih =>
    rcases List.mem_cons.1 htuples with rfl | htuples
    · exact ⟨e, List.mem_cons_self, he⟩
    · obtain ⟨f, hf, hwrote⟩ := ih htuples
      exact ⟨f, List.mem_cons_of_mem _ hf, hwrote⟩

/-- The blocks of a writer have fewer than 2 ^ 32 tuples each where there are no more in all, or
where the block size leaves no room for more. -/
theorem count_lt_of_packed {w : Writer} {blocks : List (List Tuple)} (h : w.Holds blocks [])
    (hpacked : w.Packed)
    (hcount : blocks.flatten.length < 2 ^ 32 ∨ w.format.blockSize ≤ 2 ^ 34) :
    ∀ tuples ∈ blocks, tuples.length < 2 ^ 32 := by
  intro tuples htuples
  rcases hcount with hfew | hsmall
  · exact Nat.lt_of_le_of_lt (List.sublist_flatten_of_mem htuples).length_le hfew
  · obtain ⟨e, he, hwrote⟩ := exists_wrote h.wrote htuples
    have hentry := hpacked.entries e he
    rw [hwrote.tuples] at hentry
    simp only [Block.numberSize, Block.trailerSize] at hentry
    omega

theorem packed_start {format : Format} {w : Writer} (h : start format = .ok w) :
    w.Packed ∧ w.lastKey = [] := by
  obtain rfl := eq_of_start h
  exact ⟨⟨rfl, Draft.packed_nil _ _, by simp⟩, rfl⟩

end Writer

namespace Archive

/-- What an opened file gives back of the tuples it was written from, and of the component that was
made with it. -/
structure Restores (a : Archive) (file : Bytes) (c : Component) (tuples : List Tuple) : Prop where
  all : a.tuples file = .ok tuples
  count : a.footer.tuples = tuples.length
  find : ∀ key, ∃ answer, a.find? file key = .ok answer ∧
    Tuple.Picks a.keyFields tuples key answer
  component : ∀ serial name, a.component file serial name = .ok { c with
    serial := serial
    contents := c.contents.map fun contents => { contents with file := name } }

end Archive

/-- Of tuples that a codec takes in, with keys that do not descend, a writer makes a file, unless a
block would grow beyond 4 GiB. The file is opened as an archive that gives back the tuples, their
number, one of them under each key, and the component. -/
theorem Writer.file_restores {format : Format} {tuples : List Tuple} {range : Range}
    (hrate : Bloom.validRate format.rate = true) (hsize : format.blockSize < Bytes.limit)
    (haccepts : ∀ t ∈ tuples, format.codec.Accepts t)
    (hord : Tuple.Ordered format.keyFields tuples)
    (hkeys : ∀ t ∈ tuples, (format.keyOf t).length < 2 ^ 32)
    (hcount : tuples.length < 2 ^ 32 ∨ format.blockSize ≤ 2 ^ 34)
    (hordered : range.min ≤ range.max) (hmax : range.max < Numeral.word)
    (serial : Nat) (name : String) :
    ∃ w v answer, Writer.start format = .ok w ∧ w.addAll tuples = (v, answer) ∧
      (answer = .ok () ∨ answer = tooLarge ∧ 2 ^ 32 ≤ format.blockSize ∧
        2 ^ 32 ≤ (format.codec.images tuples).length) ∧
      (answer = .ok () → ∃ file c, v.finish serial range name = .ok (file, c) ∧
        c.size = file.length ∧ c.range = range ∧
        (file.length < Bytes.limit → ∃ a,
          (∀ path, Archive.ofBytes path format.codec format.keyFields file = .ok a) ∧
          a.Restores file c tuples ∧
          ∀ t ∈ tuples, (∀ u ∈ tuples, format.keyOf u = format.keyOf t → u = t) →
            a.find? file (format.keyOf t) = .ok (some t))) := by
  obtain ⟨w, hstart⟩ : ∃ w, Writer.start format = .ok w := ⟨_, start_of_lt hsize⟩
  have hkept : ∀ t ∈ tuples, format.codec.Keeps t := fun t ht =>
    Codec.keeps_of_accepts (haccepts t ht)
  obtain ⟨rfl, hnil⟩ := holds_start hstart
  obtain ⟨hpacked, hlast⟩ := packed_start hstart
  obtain ⟨v, answer, hadd, hanswer⟩ := addAll_spec hnil hpacked hkept hord (by
    intro t _
    rw [hlast]
    cases w.format.keyOf t <;> rfl)
  rw [List.flatten_nil, List.nil_append, List.nil_append] at hanswer
  refine ⟨w, v, answer, hstart, hadd, hanswer.imp_left And.left, ?_⟩
  rintro rfl
  have hv : v.Packed := hanswer.elim And.right fun hlarge => by simp at hlarge
  obtain ⟨hformat, closed, front, hholds, hwhole⟩ := holds_addAll hnil hkept hadd
  rw [List.flatten_nil, List.nil_append, List.nil_append] at hwhole
  obtain ⟨blocks, hblocks, hfinal, hformat'⟩ := holds_closeBlock hholds
  have hsame : v.closeBlock.format = w.format := hformat'.trans hformat
  rw [hwhole] at hblocks
  subst hblocks
  rw [← hsame] at hrate hord hkeys hcount ⊢
  obtain ⟨filter, hfilter⟩ := Bloom.Filter.exists_ofKeys hrate v.closeBlock.keys
  refine ⟨_, _, finish_eq_ok_iff.2 ⟨filter, hfilter, rfl, rfl⟩, rfl, rfl, fun hroom => ?_⟩
  obtain ⟨a, hopen, hcodec, hkeyFields, hfooter, -, hcomponent, hleads⟩ :=
    exists_archive_of_holds hfinal filter
      (count_lt_of_packed hfinal (packed_closeBlock hv) hcount) hkeys hordered hmax hroom
  have hfind := @Archive.find?_of_leads a _ _ (hcodec ▸ hkeyFields ▸ hleads) (hkeyFields ▸ hord)
  refine ⟨a, hopen, ⟨?_, ?_, hfind, fun serial name => hcomponent serial name⟩, ?_⟩
  · rw [Archive.tuples, hcodec]
    exact Archive.tuplesOf_of_leads hleads
  · rw [hfooter]
    exact hfinal.tuples.trans (by rw [List.append_nil])
  · intro t ht honly
    obtain ⟨answer, hanswer, hpicks⟩ := hfind (v.closeBlock.format.keyOf t)
    rw [hkeyFields] at hpicks
    rw [hanswer, Tuple.eq_some_of_picks hpicks ht honly]

/-- Of three tuples, two of them with one key, the third comes to a block of its own. All are given
back, and the third is found under its key. -/
theorem Writer.equal_keys_restored :
    let format : Format :=
      { codec := .plain [.varying, .varying], blockSize := 32, rate := 0.01, keyFields := 1 }
    let tuples : List Tuple := [[[97], [49]], [[97], [50]], [[98], [51]]]
    ∃ w v file c a, Writer.start format = .ok w ∧ w.addAll tuples = (v, .ok ()) ∧
      v.closeBlock.entries.length = 2 ∧ v.finish 4 ⟨3, 5⟩ "c.cmp" = .ok (file, c) ∧
      (∀ path, Archive.ofBytes path format.codec format.keyFields file = .ok a) ∧
      a.Restores file c tuples ∧ a.find? file [1, 98] = .ok (some [[98], [51]]) := by
  intro format tuples
  have haccepts : ∀ t ∈ tuples, format.codec.Accepts t := by
    simp only [tuples, List.forall_mem_cons]
    refine ⟨⟨rfl, 5, 5, ?_⟩, ⟨rfl, 5, 5, ?_⟩, ⟨rfl, 5, 5, ?_⟩, by simp⟩ <;> decide +kernel
  obtain ⟨w, v, answer, hstart, hadd, hanswer, hfile⟩ :=
    @file_restores format tuples ⟨3, 5⟩ (by decide +kernel) (by decide) haccepts
      (by decide +kernel) (by decide +kernel) (.inl (by decide)) (by decide) (by decide) 4 "c.cmp"
  obtain rfl : answer = .ok () := hanswer.elim id fun hlarge => absurd hlarge.2.1 (by decide)
  obtain ⟨file, c, hfinish, hsize, -, hopen⟩ := hfile rfl
  have hv : v = (Writer.addAll { format, draft := { codec := format.codec, capacity := 32 } }
      tuples).1 := by
    obtain rfl := Except.ok.inj hstart
    rw [hadd]
  have hwritten : v.closeBlock.written.length +
      (v.closeBlock.entries.flatMap IndexEntry.encode).length < 2 ^ 10 ∧
      v.closeBlock.entries.length = 2 := by
    rw [hv]
    decide +kernel
  have hroom : file.length < Bytes.limit := by
    obtain ⟨filter, -, rfl, -⟩ := finish_eq_ok_iff.1 hfinish
    have hlength := v.closeBlock.length_fileWith filter ⟨3, 5⟩
    have hsmall := filter.length_encode_lt
    simp only [Footer.size, Bytes.limit] at hlength ⊢
    omega
  obtain ⟨a, hopened, hrestores, honly⟩ := hopen hroom
  refine ⟨w, v, file, c, a, hstart, hadd, hwritten.2, hfinish, hopened, hrestores, ?_⟩
  have hkey : format.keyOf [[98], [51]] = [1, 98] := by decide +kernel
  rw [← hkey]
  exact honly [[98], [51]] (by decide) (by decide +kernel)

/-- No writer has room for blocks of 2 ^ 63 bytes. Files with an inverted range, a key of 2 ^ 32
bytes, or 2 ^ 32 tuples in a block are made and are not opened. Behind 4 GiB in a block the next
tuple is refused. -/
theorem Writer.unopened_beyond_widths :
    let format (kinds : List FieldKind) (blockSize : Nat) : Format :=
      { codec := .plain kinds, blockSize, rate := 0.01, keyFields := 1 }
    let large : Tuple := [[97], List.replicate (2 ^ 32) 0]
    start (format [.varying] (2 ^ 63)) = .error .breach ∧
      Unopened (format [.varying] 64) [[[97]]] ⟨7, 3⟩ (fun _ => .invertedRange 7 3) ∧
      Unopened (format [.varying] 64) [[List.replicate (2 ^ 32 - 5) 255]] ⟨3, 7⟩
        (fun _ => .entryTruncated) ∧
      Unopened (format [] (2 ^ 35)) (List.replicate (2 ^ 32) []) ⟨3, 7⟩
        (fun path => .tupleCount path (2 ^ 32) 0) ∧
      ∃ w v, start (format [.varying, .varying] (2 ^ 34)) = .ok w ∧
        w.addAll [large, large] = (v, tooLarge) := by
  intro format large
  have hrate : Bloom.validRate 0.01 = true := by decide +kernel
  have hstores : (format [.varying] 64).codec.Stores [[97]] :=
    Codec.stores_of_keeps (Codec.keeps_plain (.cons trivial .nil))
  refine ⟨start_of_le (Nat.le_refl _), ?_, ?_, ?_, ?_⟩
  · exact unopened_of_inverted hrate (by decide) hstores (by decide) (by decide)
  · exact unopened_of_long hrate (by decide) rfl rfl (by decide) (by decide) (by decide)
  · exact unopened_of_vacant hrate (by decide) rfl (by decide) (Nat.dvd_refl _) (by decide)
      (by decide) (by decide)
  · exact addAll_of_large (by decide) rfl (Nat.le_refl _) (by decide) (by decide)

end Strata
