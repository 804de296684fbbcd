import Strata.Component.Footer
import Strata.Proofs.Bytes

/-!
# Block index and footer are read back

Both are read for what was written as long as their numbers fit the widths they are written with.
Nothing else is read: bytes that are accepted are those that are written of what is read from them.
-/

namespace Strata

namespace IndexEntry

/-- The numbers of an entry fit their widths. -/
structure Fits (e : IndexEntry) : Prop where
  lastKey : e.lastKey.length < 2 ^ 32
  offset : e.offset < 2 ^ 64
  size : e.size < 2 ^ 64
  tuples : e.tuples < 2 ^ 32

theorem length_encode (e : IndexEntry) : e.encode.length = e.lastKey.length + fixedSize := by
  simp only [encode, fixedSize, List.length_append, Bytes.length_ofNat]
  omega

/-- An entry is read back, whatever follows it. -/
theorem decode_encode {e : IndexEntry} (h : e.Fits) (rest : Bytes) :
    decode (e.encode ++ rest) = .ok (e, e.encode.length) := by
  have hlength := length_encode e
  have hkeySize : Bytes.natAt (e.encode ++ rest) 0 4 = e.lastKey.length := by
    refine Bytes.natAt_eq [] (e.lastKey ++ Bytes.ofNat 8 e.offset ++
      Bytes.ofNat 8 e.size ++ Bytes.ofNat 4 e.tuples ++ rest) ?_ rfl h.lastKey
    simp [encode]
  have hkey : Bytes.slice (e.encode ++ rest) 4 e.lastKey.length = e.lastKey := by
    refine Bytes.slice_eq (Bytes.ofNat 4 e.lastKey.length)
      (Bytes.ofNat 8 e.offset ++ Bytes.ofNat 8 e.size ++ Bytes.ofNat 4 e.tuples ++ rest)
      ?_ (by simp) rfl
    simp [encode]
  have hoffset : Bytes.natAt (e.encode ++ rest) (4 + e.lastKey.length) 8 = e.offset := by
    refine Bytes.natAt_eq (Bytes.ofNat 4 e.lastKey.length ++ e.lastKey)
      (Bytes.ofNat 8 e.size ++ Bytes.ofNat 4 e.tuples ++ rest) ?_ (by simp) h.offset
    simp [encode]
  have hsize : Bytes.natAt (e.encode ++ rest) (12 + e.lastKey.length) 8 = e.size := by
    refine Bytes.natAt_eq (Bytes.ofNat 4 e.lastKey.length ++ e.lastKey ++
      Bytes.ofNat 8 e.offset) (Bytes.ofNat 4 e.tuples ++ rest) ?_ ?_ h.size
    · simp [encode]
    · simp
      omega
  have htuples : Bytes.natAt (e.encode ++ rest) (20 + e.lastKey.length) 4 = e.tuples := by
    refine Bytes.natAt_eq (Bytes.ofNat 4 e.lastKey.length ++ e.lastKey ++
      Bytes.ofNat 8 e.offset ++ Bytes.ofNat 8 e.size) rest ?_ ?_ h.tuples
    · simp [encode]
    · simp
      omega
  simp only [decode, hkeySize, hkey, hoffset, hsize, htuples, List.length_append]
  rw [if_neg (by simp only [fixedSize] at *; omega), hlength]

/-- What is written of an entry that is read are the bytes it was read from. -/
theorem encode_of_decode {data : Bytes} {e : IndexEntry} {size : Nat}
    (h : decode data = .ok (e, size)) : e.Fits ∧ e.encode = data.take size := by
  have hlt := Bytes.natAt_lt data
  simp only [decode] at h
  generalize hkeySize : Bytes.natAt data 0 4 = keySize at h
  split at h
  · contradiction
  · rename_i hlength
    obtain ⟨rfl, rfl⟩ := Prod.mk.inj (Except.ok.inj h)
    have hroom : keySize + 24 ≤ data.length := Nat.not_lt.1 (not_or.1 hlength).2
    have hkey : (Bytes.slice data 4 keySize).length = keySize := by
      rw [Bytes.length_slice]
      omega
    have hsmall : keySize < 2 ^ 32 := hkeySize ▸ hlt 0 4
    refine ⟨⟨by rw [hkey]; exact hsmall, hlt _ _, hlt _ _, hlt _ _⟩, ?_⟩
    have hfront : Bytes.ofNat 4 keySize = Bytes.slice data 0 4 := by
      rw [← hkeySize, Bytes.ofNat_natAt (by omega)]
    simp only [encode, hkey, hfront]
    rw [Bytes.ofNat_natAt (by omega), Bytes.ofNat_natAt (by omega), Bytes.ofNat_natAt (by omega),
      Bytes.slice_append_slice rfl, Bytes.slice_append_slice (by omega),
      Bytes.slice_append_slice (by omega), Bytes.slice_append_slice (by omega)]
    simp only [Bytes.slice, fixedSize, List.drop_zero]
    congr 1
    omega

/-- An entry is read just where the bytes begin with what is written of it. -/
theorem decode_eq_ok_iff {data : Bytes} {e : IndexEntry} {size : Nat} :
    decode data = .ok (e, size) ↔
      e.Fits ∧ size = e.encode.length ∧ ∃ rest, data = e.encode ++ rest := by
  constructor
  · intro h
    obtain ⟨hfits, hbytes⟩ := encode_of_decode h
    have hsize := (decode_size h).2
    refine ⟨hfits, ?_, data.drop size, ?_⟩
    · rw [hbytes, List.length_take, Nat.min_eq_left hsize]
    · rw [hbytes, List.take_append_drop]
  · rintro ⟨hfits, rfl, rest, rfl⟩
    exact decode_encode hfits rest

theorem decodeAll_eq_nil_iff {data : Bytes} : decodeAll data = .ok [] ↔ data = [] := by
  rw [decodeAll]
  cases data with
  | nil => simp
  | cons b rest =>
    simp only [List.isEmpty_cons, Bool.false_eq_true, if_false, reduceCtorEq, iff_false]
    split
    · simp
    · rename_i entry size _
      cases decodeAll (List.drop size (b :: rest)) <;> simp [bind, Except.bind, pure, Except.pure]

/-- Entries are read one after the other. -/
theorem decodeAll_eq_cons_iff {data : Bytes} {e : IndexEntry} {entries : List IndexEntry} :
    decodeAll data = .ok (e :: entries) ↔
      ∃ size, decode data = .ok (e, size) ∧ decodeAll (data.drop size) = .ok entries := by
  rw [decodeAll]
  cases data with
  | nil => simp [decode]
  | cons b rest =>
    simp only [List.isEmpty_cons, Bool.false_eq_true, if_false]
    split
    · rename_i error heq
      simp [heq]
    · rename_i entry size heq
      simp only [heq, Except.ok.injEq, Prod.mk.injEq, and_assoc, exists_and_left, exists_eq_left']
      cases decodeAll (List.drop size (b :: rest)) <;> simp [bind, Except.bind, pure, Except.pure]

/-- A block index is read as some entries just where it is what is written of them. -/
theorem decodeAll_eq_ok_iff {data : Bytes} {entries : List IndexEntry} :
    decodeAll data = .ok entries ↔ (∀ e ∈ entries, e.Fits) ∧ data = entries.flatMap encode := by
  induction entries generalizing data with
  | nil => simp [decodeAll_eq_nil_iff]
  | cons e entries ih =>
    rw [decodeAll_eq_cons_iff, List.forall_mem_cons, List.flatMap_cons]
    constructor
    · rintro ⟨size, hfirst, hothers⟩
      obtain ⟨hfits, rfl, rest, rfl⟩ := decode_eq_ok_iff.1 hfirst
      rw [List.drop_left, ih] at hothers
      exact ⟨⟨hfits, hothers.1⟩, by rw [hothers.2]⟩
    · rintro ⟨⟨hfits, hothers⟩, rfl⟩
      refine ⟨_, decode_eq_ok_iff.2 ⟨hfits, rfl, _, rfl⟩, ?_⟩
      rw [List.drop_left, ih]
      exact ⟨hothers, rfl⟩

/-- A block index is read back. -/
theorem decodeAll_encode {entries : List IndexEntry} (h : ∀ e ∈ entries, e.Fits) :
    decodeAll (entries.flatMap encode) = .ok entries :=
  decodeAll_eq_ok_iff.2 ⟨h, rfl⟩

/-- The number of tuples is written in four bytes. -/
theorem encode_mod (e : IndexEntry) :
    ({ e with tuples := e.tuples % 2 ^ 32 } : IndexEntry).encode = e.encode := by
  have hmod : Bytes.ofNat 4 (e.tuples % 2 ^ 32) = Bytes.ofNat 4 e.tuples := Bytes.ofNat_mod 4 _
  simp only [encode, hmod]

/-- What is no block index ends within an entry. -/
theorem decodeAll_cases (data : Bytes) : (∃ entries, decodeAll data = .ok entries) ∨
    decodeAll data = .error (.damage .entryTruncated) := by
  fun_induction decodeAll data with
  | case1 => exact .inl ⟨[], rfl⟩
  | case2 data hne e heq =>
    refine .inr ?_
    simp only [decode] at heq
    split at heq
    · rw [← Except.error.inj heq]
    · contradiction
  | case3 data hne entry size heq ih =>
    rcases ih with ⟨entries, hrest⟩ | hrest
    · exact .inl ⟨entry :: entries, by rw [hrest]; rfl⟩
    · exact .inr (by rw [hrest]; rfl)

/-- Where more is asked for than is left, no entry is read. -/
theorem decode_of_lt {data : Bytes} (h : data.length < Bytes.natAt data 0 4 + fixedSize) :
    decode data = .error (.damage .entryTruncated) := by
  simp only [decode]
  rw [if_pos (.inr h)]

/-- A length of 2 ^ 32 is written as zero, so the next entry is looked for within the key. Where
more is asked for there than is left, the entry is not read. -/
theorem decodeAll_of_long {e : IndexEntry} {front back : Bytes} {n : Nat}
    (hkey : e.lastKey = front ++ Bytes.ofNat 4 n ++ back) (hfront : front.length = 20)
    (hlength : e.lastKey.length = 2 ^ 32) (hn : n < 2 ^ 32) (hlarge : 2 ^ 32 < n + fixedSize) :
    decodeAll e.encode = .error (.damage .entryTruncated) := by
  have hsize : e.encode.length = 2 ^ 32 + fixedSize := by rw [length_encode, hlength]
  have hdropped : (e.encode.drop fixedSize).length = 2 ^ 32 := by
    rw [List.length_drop, hsize, Nat.add_sub_cancel]
  have hfirst : Bytes.natAt e.encode 0 4 = 0 := by
    refine Bytes.natAt_eq [] (e.lastKey ++ Bytes.ofNat 8 e.offset ++ Bytes.ofNat 8 e.size ++
      Bytes.ofNat 4 e.tuples) ?_ rfl (by decide)
    rw [encode, hlength, ← Bytes.ofNat_mod]
    simp only [List.nil_append, List.append_assoc]
    rfl
  have hnext : Bytes.natAt (e.encode.drop fixedSize) 0 4 = n := by
    refine Bytes.natAt_eq [] (back ++ Bytes.ofNat 8 e.offset ++ Bytes.ofNat 8 e.size ++
      Bytes.ofNat 4 e.tuples) ?_ rfl hn
    rw [encode, hkey]
    simp only [List.append_assoc, List.nil_append]
    rw [← List.append_assoc]
    exact List.drop_left' (by simp [hfront, fixedSize])
  obtain ⟨short, hshort⟩ : ∃ short, decode e.encode = .ok (short, fixedSize) := by
    simp only [decode, hfirst, Nat.zero_add]
    rw [if_neg (by simp only [fixedSize] at *; omega)]
    exact ⟨_, rfl⟩
  rcases decodeAll_cases e.encode with ⟨entries, hread⟩ | herror
  · cases entries with
    | nil =>
      rw [decodeAll_eq_nil_iff] at hread
      simp [hread, fixedSize] at hsize
    | cons first rest =>
      obtain ⟨size, hdecode, hrest⟩ := decodeAll_eq_cons_iff.1 hread
      obtain ⟨rfl, rfl⟩ := Prod.mk.inj (Except.ok.inj (hdecode.symm.trans hshort))
      cases rest with
      | nil =>
        rw [decodeAll_eq_nil_iff] at hrest
        simp [hrest] at hdropped
      | cons second rest =>
        obtain ⟨size, hdecode, -⟩ := decodeAll_eq_cons_iff.1 hrest
        rw [decode_of_lt (by omega)] at hdecode
        contradiction
  · exact herror

end IndexEntry

namespace Footer

/-- The numbers of a footer fit their width, and its range is not inverted. -/
structure Fits (f : Footer) : Prop where
  indexOffset : f.indexOffset < 2 ^ 64
  indexSize : f.indexSize < 2 ^ 64
  bloomOffset : f.bloomOffset < 2 ^ 64
  bloomSize : f.bloomSize < 2 ^ 64
  tuples : f.tuples < 2 ^ 64
  max : f.range.max < 2 ^ 64
  ordered : f.range.min ≤ f.range.max

/-- The numbers of a footer, in the order they are written. -/
def row (f : Footer) : List Nat :=
  [f.indexOffset, f.indexSize, f.bloomOffset, f.bloomSize, f.tuples, f.range.min, f.range.max,
    magic]

theorem encode_eq (f : Footer) : f.encode = f.row.flatMap (Bytes.ofNat 8) := by
  unfold encode row
  rw [List.flatMap_cons, List.flatMap_cons, List.flatMap_cons, List.flatMap_cons,
    List.flatMap_cons, List.flatMap_cons, List.flatMap_cons, List.flatMap_cons, List.flatMap_nil]
  simp only [List.append_assoc, List.append_nil]

/-- A number of a footer that fits its width is read back from the bytes of the footer. -/
theorem natAt_encode (f : Footer) {i start n : Nat} (hi : f.row[i]? = some n) (hn : n < 2 ^ 64)
    (hstart : start = i * 8) : Bytes.natAt f.encode start 8 = n := by
  refine Bytes.natAt_flatMap [] [] hi ?_ (by simpa using hstart) hn
  rw [List.nil_append, List.append_nil, encode_eq]

/-- A footer is read back. -/
theorem decode_encode {f : Footer} (h : f.Fits) : decode f.encode = .ok f := by
  have hordered := h.ordered
  have hmax := h.max
  have hindexOffset : Bytes.natAt f.encode 0 8 = f.indexOffset :=
    f.natAt_encode (i := 0) rfl h.indexOffset rfl
  have hindexSize : Bytes.natAt f.encode 8 8 = f.indexSize :=
    f.natAt_encode (i := 1) rfl h.indexSize rfl
  have hbloomOffset : Bytes.natAt f.encode 16 8 = f.bloomOffset :=
    f.natAt_encode (i := 2) rfl h.bloomOffset rfl
  have hbloomSize : Bytes.natAt f.encode 24 8 = f.bloomSize :=
    f.natAt_encode (i := 3) rfl h.bloomSize rfl
  have htuples : Bytes.natAt f.encode 32 8 = f.tuples := f.natAt_encode (i := 4) rfl h.tuples rfl
  have hmin : Bytes.natAt f.encode 40 8 = f.range.min :=
    f.natAt_encode (i := 5) rfl (by omega) rfl
  have hmax : Bytes.natAt f.encode 48 8 = f.range.max := f.natAt_encode (i := 6) rfl hmax rfl
  have hmagic : Bytes.natAt f.encode 56 8 = magic := f.natAt_encode (i := 7) rfl (by decide) rfl
  simp only [decode, hindexOffset, hindexSize, hbloomOffset, hbloomSize, htuples, hmin, hmax,
    hmagic, length_encode]
  rw [if_neg (by omega), if_neg (by simp), if_neg (by omega)]

/-- A footer with an inverted range is not read. -/
theorem decode_of_inverted {f : Footer} (hmin : f.range.min < 2 ^ 64)
    (h : f.range.max < f.range.min) :
    decode f.encode = .error (.damage (.invertedRange f.range.min f.range.max)) := by
  have hmin : Bytes.natAt f.encode 40 8 = f.range.min := f.natAt_encode (i := 5) rfl hmin rfl
  have hmax : Bytes.natAt f.encode 48 8 = f.range.max :=
    f.natAt_encode (i := 6) rfl (by omega) rfl
  have hmagic : Bytes.natAt f.encode 56 8 = magic := f.natAt_encode (i := 7) rfl (by decide) rfl
  simp only [decode, hmin, hmax, hmagic, length_encode]
  rw [if_neg (by omega), if_neg (by simp), if_pos h]

/-- Of bytes of the size of a footer, those are read that end in the number that marks the format
and have the range in order. -/
theorem exists_decode_iff {data : Bytes} (hlength : data.length = size) :
    (∃ f, decode data = .ok f) ↔
      Bytes.natAt data 56 8 = magic ∧ Bytes.natAt data 40 8 ≤ Bytes.natAt data 48 8 := by
  simp only [decode]
  rw [if_neg (by omega)]
  split
  · rename_i hmagic
    simp [hmagic]
  · rename_i hmagic
    split
    · rename_i hrange
      simp only [reduceCtorEq, exists_false, false_iff]
      omega
    · rename_i hrange
      exact ⟨fun _ => ⟨Decidable.not_not.1 hmagic, Nat.not_lt.1 hrange⟩, fun _ => ⟨_, rfl⟩⟩

/-- Bytes of the size of a footer are read as what they are written of. -/
theorem decode_eq_ok_iff {data : Bytes} {f : Footer} (hlength : data.length = size) :
    decode data = .ok f ↔ f.Fits ∧ data = f.encode := by
  constructor
  · intro h
    have hlt := Bytes.natAt_lt data
    have hword := fun start => @Bytes.ofNat_natAt data start 8
    rw [hlength, size] at hword
    obtain ⟨hmagic, hrange⟩ := (exists_decode_iff hlength).1 ⟨f, h⟩
    simp only [decode] at h
    rw [if_neg (by omega), if_neg (by simp [hmagic]), if_neg (by omega)] at h
    obtain rfl := Except.ok.inj h
    refine ⟨⟨hlt _ _, hlt _ _, hlt _ _, hlt _ _, hlt _ _, hlt _ _, hrange⟩, ?_⟩
    simp only [encode, ← hmagic]
    rw [hword 0 (by omega), hword 8 (by omega), hword 16 (by omega), hword 24 (by omega),
      hword 32 (by omega), hword 40 (by omega), hword 48 (by omega), hword 56 (by omega)]
    simp only [Bytes.slice_append_slice]
    rw [Bytes.slice, List.drop_zero]
    exact (List.take_of_length_le (Nat.le_of_eq hlength)).symm
  · rintro ⟨hfits, rfl⟩
    exact decode_encode hfits

/-- A footer that is read has a range in order, as its bytes tell it. -/
theorem range_of_decode {data : Bytes} {f : Footer} (h : decode data = .ok f) :
    f.range = ⟨Bytes.natAt data 40 8, Bytes.natAt data 48 8⟩ ∧ f.range.min ≤ f.range.max := by
  simp only [decode] at h
  split at h
  · contradiction
  · split at h
    · contradiction
    · split at h
      · contradiction
      · rename_i hordered
        obtain rfl := Except.ok.inj h
        exact ⟨rfl, Nat.not_lt.1 hordered⟩

theorem max_lt_of_decode {data : Bytes} {f : Footer} (h : decode data = .ok f) :
    f.range.max < Numeral.word := by
  rw [(range_of_decode h).1]
  exact Bytes.natAt_lt ..

end Footer

/-- A block index is read just where it is what is written of entries whose numbers fit their
widths; all other bytes end within an entry. A footer is read just where it ends in the number of
the format and its range is in order. Both are read back. -/
theorem index_and_footer_exact :
    (∀ data, (∃ entries, IndexEntry.decodeAll data = .ok entries) ∨
      IndexEntry.decodeAll data = .error (.damage .entryTruncated)) ∧
    (∀ data entries, IndexEntry.decodeAll data = .ok entries ↔
      (∀ e ∈ entries, e.Fits) ∧ data = entries.flatMap IndexEntry.encode) ∧
    (∀ entries others : List IndexEntry, (∀ e ∈ entries, e.Fits) → (∀ e ∈ others, e.Fits) →
      entries.flatMap IndexEntry.encode = others.flatMap IndexEntry.encode → entries = others) ∧
    (∀ data : Bytes, data.length = 64 →
      ((∃ f, Footer.decode data = .ok f) ↔ Bytes.natAt data 56 8 = Footer.magic ∧
        Bytes.natAt data 40 8 ≤ Bytes.natAt data 48 8) ∧
      ∀ f, Footer.decode data = .ok f → f.Fits ∧ f.encode = data) ∧
    ∀ f : Footer, f.Fits → f.encode.length = 64 ∧ Footer.decode f.encode = .ok f := by
  refine ⟨IndexEntry.decodeAll_cases, fun data entries => IndexEntry.decodeAll_eq_ok_iff,
    ?_, ?_, ?_⟩
  · intro entries others hentries hothers heq
    have hread := IndexEntry.decodeAll_encode hentries
    rw [heq, IndexEntry.decodeAll_encode hothers] at hread
    exact (Except.ok.inj hread).symm
  · intro data hlength
    refine ⟨Footer.exists_decode_iff hlength, fun f h => ?_⟩
    obtain ⟨hfits, hbytes⟩ := (Footer.decode_eq_ok_iff hlength).1 h
    exact ⟨hfits, hbytes.symm⟩
  · intro f hfits
    exact ⟨f.length_encode, Footer.decode_encode hfits⟩

/-- A key that looks like an entry is read as the key it is, and a footer from behind entries. -/
theorem key_like_entry_read_back :
    let inner : IndexEntry := ⟨[7], 1, 2, 3⟩
    let entries : List IndexEntry := [⟨inner.encode, 0, 40, 1⟩, ⟨inner.encode ++ [0], 40, 30, 2⟩]
    let footer : Footer := ⟨86, 99, 70, 16, 3, ⟨4, 6⟩⟩
    IndexEntry.decodeAll (entries.flatMap IndexEntry.encode) = .ok entries ∧
      IndexEntry.decodeAll (entries.flatMap IndexEntry.encode ++ inner.encode) =
        .ok (entries ++ [inner]) ∧
      Footer.decode footer.encode = .ok footer := by
  intro inner entries footer
  have hinner : inner.Fits := ⟨by decide, by decide, by decide, by decide⟩
  have hentries : ∀ e ∈ entries, e.Fits := by
    simp only [entries, List.forall_mem_cons, List.not_mem_nil, false_implies, implies_true,
      and_true]
    exact ⟨⟨by decide, by decide, by decide, by decide⟩,
      ⟨by decide, by decide, by decide, by decide⟩⟩
  have hfooter : footer.Fits :=
    ⟨by decide, by decide, by decide, by decide, by decide, by decide, by decide⟩
  refine ⟨(index_and_footer_exact.2.1 _ _).2 ⟨hentries, rfl⟩, ?_, ?_⟩
  · refine (index_and_footer_exact.2.1 _ _).2 ⟨?_, by simp⟩
    simpa [or_imp, forall_and] using ⟨hentries, hinner⟩
  · exact (index_and_footer_exact.2.2.2.2 footer hfooter).2

end Strata
