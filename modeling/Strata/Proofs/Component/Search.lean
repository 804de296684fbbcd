import Mathlib.Data.List.Forall2
import Strata.Component.Archive
import Strata.Proofs.Component.Block
import Strata.Proofs.Keyed

/-!
# Searching a component file

A key is routed to the first block whose last key is not below it. No other block can hold the key,
and within the block the tuples are halved until the key is found or ruled out. So a search of the
file finds what the list of all its tuples has under the key.
-/

namespace Strata

namespace Archive

/-- The last keys of blocks do not descend. -/
abbrev Ordered (entries : List IndexEntry) : Prop :=
  entries.Pairwise fun e f => (compare e.lastKey f.lastKey).isLE

variable {entries : List IndexEntry} {key : Bytes} {i j : Nat} {e f : IndexEntry}

theorem le_of_getElem? (hord : Ordered entries) (he : entries[i]? = some e)
    (hf : entries[j]? = some f) (hij : i ≤ j) : (compare e.lastKey f.lastKey).isLE := by
  obtain ⟨hi, rfl⟩ := List.getElem?_eq_some_iff.1 he
  obtain ⟨hj, rfl⟩ := List.getElem?_eq_some_iff.1 hf
  rcases Nat.lt_or_eq_of_le hij with hlt | rfl
  · exact List.pairwise_iff_getElem.1 hord i j hi hj hlt
  · exact Std.ReflCmp.isLE_rfl

/-- Behind a last key above the key there are only such. -/
theorem gt_of_gt (hord : Ordered entries) (he : entries[i]? = some e) (hf : entries[j]? = some f)
    (hij : i ≤ j) (h : compare e.lastKey key = .gt) : compare f.lastKey key = .gt := by
  rw [Std.OrientedCmp.gt_iff_lt] at h ⊢
  exact Std.TransCmp.lt_of_lt_of_isLE h (le_of_getElem? hord he hf hij)

/-- In front of a last key below the key there are only such. -/
theorem lt_of_lt (hord : Ordered entries) (he : entries[i]? = some e) (hf : entries[j]? = some f)
    (hij : i ≤ j) (h : compare f.lastKey key = .lt) : compare e.lastKey key = .lt :=
  Std.TransCmp.lt_of_isLE_of_lt (le_of_getElem? hord he hf hij) h

/-- Halving keeps the last keys behind the stretch above the key, and the first of the stretch not
above it; so it ends at the last entry whose key is not above, or at the first of all. -/
theorem narrow_spec {base size : Nat} (hord : Ordered entries) (hsize : 0 < size)
    (hend : base + size ≤ entries.length)
    (hlow : base = 0 ∨ ∃ e, entries[base]? = some e ∧ compare e.lastKey key ≠ .gt)
    (hhigh : ∀ (i : Nat) (e : IndexEntry), base + size ≤ i → entries[i]? = some e →
      compare e.lastKey key = .gt) :
    let r := narrow entries key base size
    r < entries.length ∧
      (r = 0 ∨ ∃ e, entries[r]? = some e ∧ compare e.lastKey key ≠ .gt) ∧
      ∀ (i : Nat) (e : IndexEntry), r < i → entries[i]? = some e → compare e.lastKey key = .gt := by
  fun_induction narrow entries key base size with
  | case1 base size hone =>
    exact ⟨by omega, hlow, fun i e hi => hhigh i e (by omega)⟩
  | case2 base size hmany half hnone =>
    rw [List.getElem?_eq_none_iff] at hnone
    omega
  | case3 base size hmany half entry hentry base' ih =>
    refine ih (by omega) ?_ ?_ ?_
    · simp only [base']
      split <;> omega
    · simp only [base']
      split
      · exact hlow
      · rename_i hle
        exact .inr ⟨entry, hentry, hle⟩
    · intro i e hi he
      simp only [base'] at hi
      split at hi
      · rename_i hgt
        exact gt_of_gt hord hentry he (by omega) hgt
      · exact hhigh i e (by omega) he

/-- A key is routed to an entry with this last key, or to the first one whose last key is above. -/
theorem route?_spec {a : Archive} (hord : Ordered a.entries) (key : Bytes) :
    ∃ j, a.route? key = a.entries[j]? ∧
      (∀ (i : Nat) (e : IndexEntry), i < j → a.entries[i]? = some e →
        compare e.lastKey key = .lt ∨ ∃ f, a.entries[j]? = some f ∧ f.lastKey = key) ∧
      ∀ e : IndexEntry, a.entries[j]? = some e → compare e.lastKey key ≠ .lt := by
  rcases Nat.eq_zero_or_pos a.entries.length with hempty | hpos
  · have hnil := List.eq_nil_of_length_eq_zero hempty
    refine ⟨0, ?_, by simp, by simp [hnil]⟩
    simp [route?, hnil]
  · obtain ⟨hlt, hlow, hhigh⟩ := @narrow_spec a.entries key 0 a.entries.length hord hpos
      (Nat.le_of_eq (Nat.zero_add _)) (.inl rfl) fun i e hi he => by
        have := (List.getElem?_eq_some_iff.1 he).1
        omega
    obtain ⟨entry, hentry⟩ :
        ∃ entry, a.entries[narrow a.entries key 0 a.entries.length]? = some entry :=
      ⟨_, List.getElem?_eq_getElem hlt⟩
    simp only [route?, hentry]
    split
    · rename_i hbelow
      refine ⟨_, rfl, fun i e hi he => .inl ?_, fun e he => ?_⟩
      · exact lt_of_lt hord he hentry (Nat.le_of_lt_succ hi) hbelow
      · have hgt := hhigh _ e (Nat.lt_succ_self _) he
        simp [hgt]
    · rename_i hnotBelow
      refine ⟨_, hentry.symm, fun i e hi he => .inr ⟨_, hentry, ?_⟩, fun e he => ?_⟩
      · rcases hlow with hzero | ⟨f, hf, hle⟩
        · omega
        · rw [hentry] at hf
          obtain rfl := Option.some.inj hf
          cases hcompare : compare entry.lastKey key with
          | lt => contradiction
          | eq => exact Std.LawfulEqOrd.eq_of_compare hcompare
          | gt => contradiction
      · rw [hentry] at he
        obtain rfl := Option.some.inj he
        exact hnotBelow

/-- Halving the tuples of a block between those known to be below the key and those known to be
above it finds a tuple with the key where there is one. -/
theorem search_spec {codec : Codec} {keyFields : Nat} {b : Block} {tuples : List Tuple}
    (hshows : b.Shows codec tuples) (hord : Tuple.Ordered keyFields tuples) {low high : Nat}
    (hhigh : high ≤ tuples.length)
    (hbelow : ∀ (i : Nat) (t : Tuple), i < low → tuples[i]? = some t →
      compare (t.keyBytes keyFields) key = .lt)
    (habove : ∀ (i : Nat) (t : Tuple), high ≤ i → tuples[i]? = some t →
      compare (t.keyBytes keyFields) key = .gt) :
    ∃ answer, search codec keyFields b key low high = .ok answer ∧
      Tuple.Picks keyFields tuples key answer := by
  have hle : ∀ {i j : Nat} {t u : Tuple}, tuples[i]? = some t → tuples[j]? = some u → i ≤ j →
      (compare (t.keyBytes keyFields) (u.keyBytes keyFields)).isLE := by
    intro i j t u ht hu hij
    obtain ⟨hi, rfl⟩ := List.getElem?_eq_some_iff.1 ht
    obtain ⟨hj, rfl⟩ := List.getElem?_eq_some_iff.1 hu
    rcases Nat.lt_or_eq_of_le hij with hlt | rfl
    · exact List.pairwise_iff_getElem.1 hord i j hi hj hlt
    · exact Std.ReflCmp.isLE_rfl
  have hread : ∀ {i o : Nat} {answer : Outcome Tuple}, i < tuples.length →
      b.offsets[i]? = some o → codec.read b.data o = answer →
      ∃ t, tuples[i]? = some t ∧ answer = .ok t := by
    intro i o answer hi ho hanswer
    obtain ⟨o', ho', hok⟩ := hshows.read i _ (List.getElem?_eq_getElem hi)
    rw [ho] at ho'
    obtain rfl := Option.some.inj ho'
    exact ⟨_, List.getElem?_eq_getElem hi, hanswer.symm.trans hok⟩
  fun_induction search codec keyFields b key low high with
  | case1 low high hlh mid hnone =>
    rw [List.getElem?_eq_none_iff, hshows.length] at hnone
    omega
  | case2 low high hlh mid o ho e he =>
    obtain ⟨t, -, hok⟩ := hread (by omega) ho he
    contradiction
  | case3 low high hlh mid o ho t ht hcompare ih =>
    obtain ⟨t', hmid, hok⟩ := hread (by omega) ho ht
    obtain rfl := Except.ok.inj hok
    refine ih hhigh (fun i u hi hu => ?_) habove
    exact Std.TransCmp.lt_of_isLE_of_lt (hle hu hmid (Nat.le_of_lt_succ hi)) hcompare
  | case4 low high hlh mid o ho t ht hcompare ih =>
    obtain ⟨t', hmid, hok⟩ := hread (by omega) ho ht
    obtain rfl := Except.ok.inj hok
    refine ih (by omega) hbelow fun i u hi hu => ?_
    rw [Std.OrientedCmp.gt_iff_lt] at hcompare ⊢
    exact Std.TransCmp.lt_of_lt_of_isLE hcompare (hle hmid hu hi)
  | case5 low high hlh mid o ho t ht hcompare =>
    obtain ⟨t', hmid, hok⟩ := hread (by omega) ho ht
    obtain rfl := Except.ok.inj hok
    exact ⟨_, rfl, List.mem_of_getElem? hmid, Std.LawfulEqOrd.eq_of_compare hcompare⟩
  | case6 low high hlh =>
    refine ⟨none, rfl, fun t ht hkey => ?_⟩
    obtain ⟨i, hi⟩ := List.mem_iff_getElem?.1 ht
    rcases Nat.lt_or_ge i low with hlow | hlow
    · have hlt := hbelow i t hlow hi
      simp [hkey] at hlt
    · have hgt := habove i t (by omega) hi
      simp [hkey] at hgt

/-- An entry of the block index leads to a block of these tuples. -/
structure Leads (codec : Codec) (keyFields : Nat) (file : Bytes) (e : IndexEntry)
    (tuples : List Tuple) : Prop where
  lastKey : ∃ front last, tuples = front ++ [last] ∧ e.lastKey = last.keyBytes keyFields
  block : ∃ b, block file e = .ok b ∧ b.Shows codec tuples

/-- The blocks of a file hold these tuples, block by block, and the keys of all of them ascend. -/
structure Serves (a : Archive) (file : Bytes) (blocks : List (List Tuple)) : Prop where
  leads : List.Forall₂ (Leads a.codec a.keyFields file) a.entries blocks
  ascending : Tuple.Ascending a.keyFields blocks.flatten

theorem tuplesOf_of_leads {codec : Codec} {keyFields : Nat} {file : Bytes}
    {entries : List IndexEntry} {blocks : List (List Tuple)}
    (h : List.Forall₂ (Leads codec keyFields file) entries blocks) :
    tuplesOf codec file entries = .ok blocks.flatten := by
  induction h with
  | nil => rfl
  | @cons e tuples entries blocks he hrest ih =>
    obtain ⟨b, hblock, hshows⟩ := he.block
    rw [tuplesOf, hblock, Outcome.bind_eq_ok_iff]
    refine ⟨b, rfl, Outcome.bind_eq_ok_iff.2 ⟨tuples, Block.tuples_of_shows hshows, ?_⟩⟩
    exact Outcome.bind_eq_ok_iff.2 ⟨blocks.flatten, ih, rfl⟩

/-- All tuples of a file are read in order. -/
theorem tuples_of_serves {a : Archive} {file : Bytes} {blocks : List (List Tuple)}
    (h : a.Serves file blocks) : a.tuples file = .ok blocks.flatten :=
  tuplesOf_of_leads h.leads

theorem le_lastKey {codec : Codec} {keyFields : Nat} {file : Bytes} {tuples : List Tuple}
    (he : Leads codec keyFields file e tuples) (hord : Tuple.Ordered keyFields tuples) {t : Tuple}
    (ht : t ∈ tuples) : (compare (t.keyBytes keyFields) e.lastKey).isLE := by
  obtain ⟨front, last, rfl, hlast⟩ := he.lastKey
  rw [hlast]
  rcases List.mem_append.1 ht with ht | ht
  · exact (List.pairwise_append.1 hord).2.2 t ht last (List.mem_singleton_self last)
  · rw [List.mem_singleton.1 ht]
    exact Std.ReflCmp.isLE_rfl

/-- No tuple of a later block has a key below the last key of a block. -/
theorem lastKey_le {codec : Codec} {keyFields : Nat} {file : Bytes} {tuples others : List Tuple}
    (he : Leads codec keyFields file e tuples) (hord : Tuple.Ordered keyFields (tuples ++ others))
    {u : Tuple} (hu : u ∈ others) : (compare e.lastKey (u.keyBytes keyFields)).isLE := by
  obtain ⟨front, last, rfl, hlast⟩ := he.lastKey
  rw [hlast]
  exact (List.pairwise_append.1 hord).2.2 last (by simp) u hu

theorem exists_leads {codec : Codec} {keyFields : Nat} {file : Bytes}
    {blocks : List (List Tuple)}
    (h : List.Forall₂ (Leads codec keyFields file) entries blocks)
    (he : e ∈ entries) : ∃ tuples ∈ blocks, Leads codec keyFields file e tuples := by
  induction h with
  | nil => simp at he
  | @cons f tuples entries blocks hf hrest ih =>
    rcases List.mem_cons.1 he with rfl | he
    · exact ⟨tuples, by simp, hf⟩
    · obtain ⟨others, hothers, hleads⟩ := ih he
      exact ⟨others, List.mem_cons_of_mem _ hothers, hleads⟩

theorem ordered_of_leads {codec : Codec} {keyFields : Nat} {file : Bytes}
    {blocks : List (List Tuple)}
    (h : List.Forall₂ (Leads codec keyFields file) entries blocks)
    (hord : Tuple.Ordered keyFields blocks.flatten) : Ordered entries := by
  induction h with
  | nil => exact List.Pairwise.nil
  | @cons e tuples entries blocks he hrest ih =>
    rw [List.flatten_cons] at hord
    refine List.pairwise_cons.2 ⟨fun f hf => ?_, ih (List.pairwise_append.1 hord).2.1⟩
    obtain ⟨others, hothers, hleads⟩ := exists_leads hrest hf
    obtain ⟨front, last, rfl, hkey⟩ := hleads.lastKey
    rw [hkey]
    exact lastKey_le he hord (List.mem_flatten.2 ⟨_, hothers, by simp⟩)

/-- What the block a key is routed to answers is what all tuples may answer. -/
theorem picks_of_route {codec : Codec} {keyFields : Nat} {file : Bytes}
    {blocks : List (List Tuple)}
    (h : List.Forall₂ (Leads codec keyFields file) entries blocks)
    (hord : Tuple.Ordered keyFields blocks.flatten)
    (hbelow : ∀ (i : Nat) (e : IndexEntry), i < j → entries[i]? = some e →
      compare e.lastKey key = .lt ∨ ∃ f, entries[j]? = some f ∧ f.lastKey = key)
    (hreach : ∀ e : IndexEntry, entries[j]? = some e → compare e.lastKey key ≠ .lt) :
    (entries[j]? = none ∧ Tuple.Picks keyFields blocks.flatten key none) ∨
      ∃ e tuples, entries[j]? = some e ∧ Leads codec keyFields file e tuples ∧
        Tuple.Ordered keyFields tuples ∧ ∀ answer, Tuple.Picks keyFields tuples key answer →
          Tuple.Picks keyFields blocks.flatten key answer := by
  induction h generalizing j with
  | nil => exact .inl ⟨rfl, by simp [Tuple.Picks]⟩
  | @cons e tuples entries blocks he hrest ih =>
    rw [List.flatten_cons] at hord
    obtain ⟨htuples, hothers, -⟩ := List.pairwise_append.1 hord
    cases j with
    | zero =>
      refine .inr ⟨e, tuples, rfl, he, htuples, fun answer hpicks => ?_⟩
      cases answer with
      | some t => exact ⟨List.mem_append_left _ hpicks.1, hpicks.2⟩
      | none =>
        intro u hu hkey
        rcases List.mem_append.1 hu with hu | hu
        · exact hpicks u hu hkey
        · have hle := lastKey_le he hord hu
          obtain ⟨front, last, rfl, hlast⟩ := he.lastKey
          rw [hkey] at hle
          cases hcompare : compare e.lastKey key with
          | lt => exact hreach e rfl hcompare
          | eq =>
            refine hpicks last (by simp) ?_
            rw [← hlast]
            exact Std.LawfulEqOrd.eq_of_compare hcompare
          | gt =>
            rw [hcompare] at hle
            contradiction
    | succ j =>
      have hnone : compare e.lastKey key = .lt → ∀ t ∈ tuples, t.keyBytes keyFields ≠ key := by
        intro hlast t ht hkey
        have hlt := Std.TransCmp.lt_of_isLE_of_lt (le_lastKey he htuples ht) hlast
        simp [hkey] at hlt
      rcases ih hothers (fun i f hi hf => hbelow (i + 1) f (Nat.succ_lt_succ hi) hf) hreach with
        ⟨hend, hpicks⟩ | ⟨f, found, hf, hleads, hfound, hlift⟩
      · rcases hbelow 0 e (Nat.succ_pos j) rfl with hlast | ⟨f, hf, -⟩
        · refine .inl ⟨hend, fun t ht => ?_⟩
          exact (List.mem_append.1 ht).elim (hnone hlast t) (hpicks t)
        · rw [List.getElem?_cons_succ, hend] at hf
          contradiction
      · refine .inr ⟨f, found, hf, hleads, hfound, fun answer hpicks => ?_⟩
        cases answer with
        | some t => exact ⟨List.mem_append_right _ (hlift _ hpicks).1, hpicks.2⟩
        | none =>
          rcases hbelow 0 e (Nat.succ_pos j) rfl with hlast | ⟨g, hg, hkey⟩
          · intro t ht
            exact (List.mem_append.1 ht).elim (hnone hlast t) (hlift none hpicks t)
          · rw [List.getElem?_cons_succ, hf] at hg
            obtain rfl := Option.some.inj hg
            obtain ⟨front, last, rfl, hlast⟩ := hleads.lastKey
            exact absurd (hlast.symm.trans hkey) (hpicks last (by simp))

/-- A search of a file whose keys do not descend gives a tuple with the key where there is one. -/
theorem find?_of_leads {a : Archive} {file : Bytes} {blocks : List (List Tuple)}
    (hleads : List.Forall₂ (Leads a.codec a.keyFields file) a.entries blocks)
    (hord : Tuple.Ordered a.keyFields blocks.flatten) (key : Bytes) :
    ∃ answer, a.find? file key = .ok answer ∧
      Tuple.Picks a.keyFields blocks.flatten key answer := by
  obtain ⟨j, hroute, hbelow, hreach⟩ := route?_spec (ordered_of_leads hleads hord) key
  rcases picks_of_route hleads hord hbelow hreach with
    ⟨hnone, hpicks⟩ | ⟨e, tuples, he, hled, htuples, hlift⟩
  · exact ⟨none, by rw [find?, hroute, hnone], hpicks⟩
  · obtain ⟨b, hblock, hshows⟩ := hled.block
    obtain ⟨answer, hsearch, hpicks⟩ := search_spec hshows htuples (Nat.le_refl _)
      (fun i t hi => absurd hi (Nat.not_lt_zero i)) fun i t hi ht => by
        have := (List.getElem?_eq_some_iff.1 ht).1
        omega
    refine ⟨answer, ?_, hlift answer hpicks⟩
    simp only [find?, hroute, he]
    rw [hblock, Outcome.bind_eq_ok_iff]
    exact ⟨b, rfl, by rw [Block.length, hshows.length, hsearch]⟩

/-- A search of a file finds what all its tuples have under the key. -/
theorem find?_of_serves {a : Archive} {file : Bytes} {blocks : List (List Tuple)}
    (h : a.Serves file blocks) (key : Bytes) :
    a.find? file key = .ok (Keyed.find? (Tuple.keyed a.keyFields blocks.flatten) key) := by
  obtain ⟨answer, hfind, hpicks⟩ :=
    find?_of_leads h.leads (Tuple.ordered_of_ascending h.ascending) key
  rw [hfind, Tuple.eq_find?_of_picks hpicks h.ascending]

end Archive

end Strata
