import Strata.Proofs.Component.Locality
import Strata.Proofs.Component.RoundTrip
import Strata.Store.Reading

/-!
# The bloom gate hides no tuple

A lookup passes over a component whose bloom filter refuses the key. The filter is that of the keys
of all tuples in the file, whatever the fingerprint of a key is, and a search of the file finds a
tuple only under its own key. So passing over the component loses nothing: a search of its file
would have found nothing.

A tuple with fewer fields than the codec has kinds is not read back as what it was, and what is read
may have a key the filter has never seen; so every tuple is asked to have all its fields.
-/

namespace Strata

namespace Writer

/-- What is known of a finished file and its component where every tuple has all its fields. -/
theorem exists_archive_of_addAll {format : Format} {w v : Writer} {tuples : List Tuple}
    {serial : Nat} {range : Range} {name : String} {file : Bytes} {c : Component}
    (hstart : start format = .ok w) (hadd : w.addAll tuples = (v, .ok ()))
    (hfinish : v.finish serial range name = .ok (file, c))
    (hfields : ∀ t ∈ tuples, t.length = format.codec.kinds.length)
    (hkeys : ∀ t ∈ tuples, (format.keyOf t).length < 2 ^ 32)
    (hcount : tuples.length < 2 ^ 32 ∨ format.blockSize ≤ 2 ^ 34)
    (hordered : range.min ≤ range.max) (hmax : range.max < Numeral.word)
    (hroom : file.length < Bytes.limit) :
    ∃ a filter, (∀ path, Archive.ofBytes path format.codec format.keyFields file = .ok a) ∧
      a.keyFields = format.keyFields ∧
      Bloom.Filter.ofKeys format.rate (tuples.map fun t => format.fingerprint (format.keyOf t)) =
        .ok filter ∧
      c.contents = some ⟨name, filter, tuples.length⟩ ∧
      (∀ id other, a.component file id other =
        .ok { c with serial := id, contents := some ⟨other, filter, tuples.length⟩ }) ∧
      ∀ key, ∃ answer, a.find? file key = .ok answer ∧
        Tuple.Picks format.keyFields tuples key answer := by
  obtain ⟨rfl, hlaid⟩ := laid_start hstart
  obtain ⟨-, hnil⟩ := holds_start hstart
  obtain ⟨hpacked, -⟩ := packed_start hstart
  obtain ⟨hord, hlast⟩ := ordered_of_addAll hadd
  obtain ⟨-, hstores, -⟩ := laid_addAll hlaid hadd
  have hkept : ∀ t ∈ tuples, w.format.codec.Keeps t := fun t ht =>
    Codec.keeps_of_stores (hstores t ht) (hfields t ht)
  have hv : v.Packed := by
    obtain ⟨v', answer, hadd', hanswer⟩ := addAll_spec hnil hpacked hkept hord hlast
    rw [hadd] at hadd'
    obtain ⟨rfl, rfl⟩ := Prod.mk.inj hadd'
    exact hanswer.elim And.right fun hlarge => by simp at hlarge
  obtain ⟨hformat, closed, front, hholds, hwhole⟩ := holds_addAll hnil hkept hadd
  obtain ⟨blocks, hblocks, hfinal, hformat'⟩ := holds_closeBlock hholds
  rw [hwhole, List.flatten_nil, List.nil_append, List.nil_append] at hblocks
  subst hblocks
  obtain ⟨filter, hfilter, rfl, rfl⟩ := finish_eq_ok_iff.1 hfinish
  have hkeysOf := hfinal.keys
  have htuples := hfinal.tuples
  rw [List.append_nil] at hkeysOf htuples
  rw [← hformat, ← hformat'] at hkeys hcount hord ⊢
  obtain ⟨a, hopen, hcodec, hkeyFields, -, -, hcomponent, hleads⟩ :=
    exists_archive_of_holds hfinal filter
      (count_lt_of_packed hfinal (packed_closeBlock hv) hcount) hkeys hordered hmax hroom
  have hfind := @Archive.find?_of_leads a _ _ (hcodec ▸ hkeyFields ▸ hleads) (hkeyFields ▸ hord)
  rw [hkeyFields] at hfind
  refine ⟨a, filter, hopen, hkeyFields, ?_, ?_, fun id other => ?_, hfind⟩
  · rw [← hkeysOf]
    exact hfilter
  · rw [componentWith, htuples]
  · rw [hcomponent, componentWith, componentWith, htuples]

end Writer
namespace Bloom.Filter

variable {keys others : List Fingerprint}

/-- What keys have put into a filter that was empty. -/
theorem foldl_spec {f : Filter} (hempty : ∀ p, hasBit f.words p = false) :
    (keys.foldl insert f).hashes = f.hashes ∧ (keys.foldl insert f).bits = f.bits ∧
      (keys.foldl insert f).Marks keys ∧
      (others.Perm keys → others.foldl insert f = keys.foldl insert f) ∧
      ∀ key ∈ keys, (keys.foldl insert f).admits key = true := by
  refine ⟨hashes_foldl f keys, bits_foldl f keys, marks_foldl hempty keys, fun hperm => ?_,
    fun key hkey => admits_foldl f keys hkey⟩
  apply foldl_congr
  intro key
  exact hperm.mem_iff

/-- The filter that is sized for keys is that of any other order of them. -/
theorem ofKeys_spec {rate : Float} {f : Filter} (h : ofKeys rate keys = .ok f) :
    f.Marks keys ∧ (others.Perm keys → ofKeys rate others = .ok f) ∧
      ∀ key ∈ keys, f.admits key = true := by
  obtain ⟨hrate, rfl⟩ := ofKeys_eq_ok_iff.1 h
  obtain ⟨-, -, hmarks, hperm, hadmits⟩ := @foldl_spec keys others _
    (@hasBit_empty (hashesFor rate) (bitsFor (max 1 keys.length) rate) (hashesFor_pos rate)
      (hashesFor_lt rate) (bitsFor_pos _ rate) (bitsFor_lt _ rate))
  refine ⟨hmarks, fun hothers => ?_, hadmits⟩
  rw [ofKeys_eq_ok_iff]
  refine ⟨hrate, ?_⟩
  rw [← hperm hothers]
  simp only [hothers.length_eq]

end Bloom.Filter

theorem Component.mayContain_of_contents {c : Component} {contents : Contents}
    (h : c.contents = some contents) (format : Format) (key : Bytes) :
    c.mayContain format key = contents.filter.admits (format.fingerprint key) := by
  rw [mayContain, h]

/-- Under a key that the filter of tuples refuses there is none of them. -/
theorem Tuple.eq_none_of_refused {format : Format} {tuples : List Tuple} {filter : Bloom.Filter}
    {key : Bytes} {answer : Option Tuple}
    (hfilter : Bloom.Filter.ofKeys format.rate
      (tuples.map fun t => format.fingerprint (format.keyOf t)) = .ok filter)
    (hpicks : Picks format.keyFields tuples key answer)
    (hrefused : filter.admits (format.fingerprint key) = false) : answer = none := by
  cases answer with
  | none => rfl
  | some t =>
    obtain ⟨ht, hkey⟩ := hpicks
    have hadmits := Bloom.Filter.admits_ofKeys hfilter (List.mem_map_of_mem ht)
    rw [Format.keyOf, hkey, hrefused] at hadmits
    contradiction

namespace Store

variable {s : Store} {d : Component} {key : Bytes}

/-- A component whose gate refuses only keys under which its file has nothing is looked up as if it
had no gate. -/
theorem findAmong_cons_of_gate (rest : List Component)
    (h : d.mayContain s.format key = false → s.findIn d key = .ok none) :
    s.findAmong key (d :: rest) = s.findIn d key >>= fun found =>
      match found with
      | some t => .ok (some t)
      | none => s.findAmong key rest := by
  rw [findAmong]
  by_cases hmay : d.mayContain s.format key = true
  · rw [if_pos hmay]
    refine bind_congr fun found => ?_
    cases found <;> rfl
  · rw [if_neg hmay, h (eq_false_of_ne_true hmay)]
    rfl

/-- Keys put into an empty filter set just the bits they point to, in any order, and are admitted.
Of a finished file of tuples with all fields, the filter lets each key through under which a search
finds a tuple. -/
theorem gate_hides_nothing (fingerprint : Bytes → Fingerprint) :
    (∀ (hashes bits : Nat) (h₁ : 0 < hashes) (h₂ : hashes < Bloom.headerLimit) (h₃ : 0 < bits)
        (h₄ : bits < Bloom.headerLimit) (keys others : List Bytes),
      let put := fun keys : List Bytes =>
        (keys.map fingerprint).foldl Bloom.Filter.insert (.empty hashes bits h₁ h₂ h₃ h₄)
      (put keys).hashes = hashes ∧ (put keys).bits = bits ∧
        (put keys).Marks (keys.map fingerprint) ∧ (others.Perm keys → put others = put keys) ∧
        ∀ key ∈ keys, (put keys).admits (fingerprint key) = true) ∧
    (∀ (rate : Float) (keys others : List Bytes) (f : Bloom.Filter),
      Bloom.Filter.ofKeys rate (keys.map fingerprint) = .ok f →
      f.Marks (keys.map fingerprint) ∧
        (others.Perm keys → Bloom.Filter.ofKeys rate (others.map fingerprint) = .ok f) ∧
        ∀ key ∈ keys, f.admits (fingerprint key) = true) ∧
    ∀ (format : Format) (w v : Writer) (tuples : List Tuple) (serial : Nat) (range : Range)
        (name : String) (file : Bytes) (c : Component),
      format.fingerprint = fingerprint → Writer.start format = .ok w →
      w.addAll tuples = (v, .ok ()) → v.finish serial range name = .ok (file, c) →
      (∀ t ∈ tuples, t.length = format.codec.kinds.length) →
      (∀ t ∈ tuples, (format.keyOf t).length < 2 ^ 32) →
      (tuples.length < 2 ^ 32 ∨ format.blockSize ≤ 2 ^ 34) →
      range.min ≤ range.max → range.max < Numeral.word → file.length < Bytes.limit →
      ∃ a, (∀ path, Archive.ofBytes path format.codec format.keyFields file = .ok a) ∧
        (∀ id other, ∃ d, a.component file id other = .ok d) ∧
        ∀ d : Component, (d = c ∨ ∃ id other, a.component file id other = .ok d) →
          (∀ key, (if d.mayContain format key then a.find? file key else .ok none) =
            a.find? file key) ∧
          ∀ (s : Store) (rest : List Component) (key : Bytes), s.format = format →
            (∃ n, d.file = .ok n ∧ s.files.find? n = some file) →
            s.findAmong key (d :: rest) = s.findIn d key >>= fun found =>
              match found with
              | some t => .ok (some t)
              | none => s.findAmong key rest := by
  refine ⟨fun hashes bits h₁ h₂ h₃ h₄ keys others => ?_, fun rate keys others f hf => ?_, ?_⟩
  · obtain ⟨hhashes, hbits, hmarks, hperm, hadmits⟩ := @Bloom.Filter.foldl_spec
      (keys.map fingerprint) (others.map fingerprint) (.empty hashes bits h₁ h₂ h₃ h₄)
      Bloom.Filter.hasBit_empty
    exact ⟨hhashes, hbits, hmarks, fun h => hperm (h.map _), fun key hkey =>
      hadmits _ (List.mem_map_of_mem hkey)⟩
  · obtain ⟨hmarks, hperm, hadmits⟩ := @Bloom.Filter.ofKeys_spec _ (others.map fingerprint) _ _ hf
    exact ⟨hmarks, fun h => hperm (h.map _), fun key hkey => hadmits _ (List.mem_map_of_mem hkey)⟩
  · rintro format w v tuples serial range name file c rfl hstart hadd hfinish hfields hkeys hcount
      hordered hmax hroom
    obtain ⟨a, filter, hopen, -, hfilter, hcontents, hcomponent, hfind⟩ :=
      Writer.exists_archive_of_addAll hstart hadd hfinish hfields hkeys hcount hordered hmax hroom
    refine ⟨a, hopen, fun id other => ⟨_, hcomponent id other⟩, fun d hd => ?_⟩
    have hgate : ∃ n count, d.contents = some ⟨n, filter, count⟩ := by
      rcases hd with rfl | ⟨id, other, hd⟩
      · exact ⟨_, _, hcontents⟩
      · rw [hcomponent] at hd
        obtain rfl := Except.ok.inj hd
        exact ⟨_, _, rfl⟩
    obtain ⟨n, count, hgate⟩ := hgate
    have hrefused : ∀ key, d.mayContain format key = false → a.find? file key = .ok none := by
      intro key hmay
      rw [Component.mayContain_of_contents hgate] at hmay
      obtain ⟨answer, hanswer, hpicks⟩ := hfind key
      rw [hanswer, Tuple.eq_none_of_refused hfilter hpicks hmay]
    refine ⟨fun key => ?_, fun s rest key hformat hfile =>
      findAmong_cons_of_gate rest fun hmay => ?_⟩
    · by_cases hmay : d.mayContain format key = true
      · rw [if_pos hmay]
      · rw [if_neg hmay, hrefused key (eq_false_of_ne_true hmay)]
    · obtain ⟨other, hname, hread⟩ := hfile
      subst hformat
      rw [findIn, openComponent_eq_ok hname (Directory.read_eq_ok_iff.2 hread) (hopen _)]
      exact hrefused key hmay

/-- With lengths for fingerprints the keys of two tuples point to the same bits. The filter of their
file lets both through, and a lookup under either asks the file. -/
theorem gate_of_equal_fingerprints :
    let format : Format :=
      { codec := .plain [.varying, .varying], blockSize := 32, rate := 0.01, keyFields := 1
        fingerprint := fun key => ⟨UInt64.ofNat key.length, 5⟩ }
    let tuples : List Tuple := [[[97], [49]], [[98], [50]]]
    ∃ w v file c a, Writer.start format = .ok w ∧ w.addAll tuples = (v, .ok ()) ∧
      v.finish 4 ⟨3, 5⟩ "c.cmp" = .ok (file, c) ∧
      (∀ path, Archive.ofBytes path format.codec format.keyFields file = .ok a) ∧
      (∀ key, (if c.mayContain format key then a.find? file key else .ok none) =
        a.find? file key) ∧
      ∃ d, a.component file 7 "d.cmp" = .ok d ∧
        ∀ key, (if d.mayContain format key then a.find? file key else .ok none) =
          a.find? file key := by
  intro format tuples
  let w : Writer := { format, draft := { codec := format.codec, capacity := 32 } }
  let v : Writer := (w.addAll tuples).1
  have hadd : w.addAll tuples = (v, .ok ()) := Prod.ext rfl (by decide +kernel)
  obtain ⟨filter, hfilter⟩ := Bloom.Filter.exists_ofKeys
    (show Bloom.validRate v.closeBlock.format.rate = true by decide +kernel) v.closeBlock.keys
  have hroom : (v.closeBlock.fileWith filter ⟨3, 5⟩).length < Bytes.limit :=
    Writer.length_fileWith_lt filter _ (by decide +kernel)
  have hfinish : v.finish 4 ⟨3, 5⟩ "c.cmp" = .ok (v.closeBlock.fileWith filter ⟨3, 5⟩,
      v.closeBlock.componentWith filter 4 ⟨3, 5⟩ "c.cmp") :=
    Writer.finish_eq_ok_iff.2 ⟨filter, hfilter, rfl, rfl⟩
  obtain ⟨a, hopen, hreopen, hgate⟩ := (gate_hides_nothing format.fingerprint).2.2 format w v tuples
    4 ⟨3, 5⟩ "c.cmp" _ _ rfl rfl hadd hfinish (by decide) (by decide +kernel) (.inl (by decide))
    (by decide) (by decide) hroom
  obtain ⟨d, hd⟩ := hreopen 7 "d.cmp"
  exact ⟨w, v, _, _, a, rfl, hadd, hfinish, hopen, (hgate _ (.inl rfl)).1, d, hd,
    (hgate d (.inr ⟨7, "d.cmp", hd⟩)).1⟩

end Store

end Strata
