import Mathlib.Data.List.Basic
import Strata.Component.FileName

/-!
# Names of component files tell components apart

A number or a range is told by its text. The name of a component file is the text of the range, an
underscore, the text of the number and an ending, and neither text has an underscore in it, so the
name tells both. The number is read back from it. A name is read only if it has the ending, so none
of a file under construction is.
-/

namespace Strata

namespace Numeral

theorem le_ofDigitChars (text : List Char) (value : Nat) :
    value ≤ Nat.ofDigitChars 10 text value := by
  induction text generalizing value with
  | nil => simp
  | cons c rest ih =>
    rw [Nat.ofDigitChars_cons]
    have := ih (10 * value + (c.toNat - '0'.toNat))
    omega

/-- Digits are read for the number they stand for, if it is below the limit. -/
theorem readDigits_eq {limit value : Nat} {text : List Char} (hdigits : ∀ c ∈ text, c.isDigit)
    (h : Nat.ofDigitChars 10 text value < limit) :
    readDigits limit value text = .ok (Nat.ofDigitChars 10 text value) := by
  induction text generalizing value with
  | nil => simp [readDigits]
  | cons c rest ih =>
    rw [List.forall_mem_cons] at hdigits
    rw [Nat.ofDigitChars_cons, Nat.mul_comm 10 value] at h ⊢
    have hle := le_ofDigitChars rest (value * 10 + (c.toNat - '0'.toNat))
    have hdigit : digit? c = some (c.toNat - '0'.toNat) := by simp [digit?, hdigits.1]
    simp only [readDigits, hdigit]
    rw [if_pos (by omega)]
    exact ih hdigits.2 h

theorem toDigits_inj {n m : Nat} : Nat.toDigits 10 n = Nat.toDigits 10 m ↔ n = m := by
  refine ⟨fun h => ?_, fun h => h ▸ rfl⟩
  have hvalue := congrArg (Nat.ofDigitChars 10 · 0) h
  simpa only [Nat.ofDigitChars_ten_toDigits] using hvalue

theorem not_mem_toDigits {n : Nat} {c : Char} (h : c.isDigit = false) :
    c ∉ Nat.toDigits 10 n := by
  intro hmem
  rw [Nat.isDigit_of_mem_toDigits (by decide) (by decide) hmem] at h
  contradiction

/-- The digits of a padded number. -/
theorem toList_padded (width n : Nat) :
    (padded width n).toList =
      List.replicate (width - (Nat.toDigits 10 n).length) '0' ++ Nat.toDigits 10 n := by
  simp [padded]

theorem isDigit_of_mem_padded {width n : Nat} {c : Char} (h : c ∈ (padded width n).toList) :
    c.isDigit := by
  rw [toList_padded] at h
  rcases List.mem_append.1 h with h | h
  · rw [List.eq_of_mem_replicate h]
    rfl
  · exact Nat.isDigit_of_mem_toDigits (by decide) (by decide) h

/-- The zeros in front of a padded number do not change what its digits stand for. -/
theorem ofDigitChars_padded (width n : Nat) :
    Nat.ofDigitChars 10 (padded width n).toList 0 = n := by
  rw [toList_padded, Nat.ofDigitChars_append, Nat.ofDigitChars_replicate_zero, Nat.mul_zero,
    Nat.ofDigitChars_ten_toDigits]

theorem padded_inj {width n m : Nat} : padded width n = padded width m ↔ n = m := by
  refine ⟨fun h => ?_, fun h => h ▸ rfl⟩
  rw [← ofDigitChars_padded width n, h, ofDigitChars_padded]

/-- A padded number is read back. -/
theorem read_padded {limit width n : Nat} (h : n < limit) :
    read limit (padded width n).toList = .ok n := by
  have hvalue := ofDigitChars_padded width n
  have hdigits := @readDigits_eq limit 0 _ (fun c hc => isDigit_of_mem_padded hc) (hvalue.symm ▸ h)
  rw [hvalue] at hdigits
  have hnil : (padded width n).toList ≠ [] := by
    rw [toList_padded]
    simp [Nat.toDigits_ne_nil]
  have hplus : '+' ∉ (padded width n).toList := fun hmem =>
    absurd (isDigit_of_mem_padded hmem) (by decide)
  cases htext : (padded width n).toList with
  | nil => exact absurd htext hnil
  | cons c rest =>
    rw [htext] at hdigits hplus
    rw [← hdigits]
    have hc : c ≠ '+' := fun hc => hplus (by simp [hc])
    unfold read
    split <;> simp_all

end Numeral

namespace Range

theorem toList_text (r : Range) :
    r.text.toList = ['c'] ++ Nat.toDigits 10 r.max ++ '-' :: Nat.toDigits 10 r.min := by
  simp [text, Nat.toString_eq_repr]
  rfl

/-- A range is told by its text: there is one dash in it, between the numbers. -/
theorem text_inj {r r' : Range} : r.text = r'.text ↔ r = r' := by
  refine ⟨fun h => ?_, fun h => h ▸ rfl⟩
  have hdash (n : Nat) : '-' ∉ Nat.toDigits 10 n := Numeral.not_mem_toDigits rfl
  have hlist := congrArg String.toList h
  rw [toList_text, toList_text,
    List.append_cons_inj_of_notMem (by simp [hdash]) (hdash r.min)] at hlist
  obtain ⟨hmax, -, hmin⟩ := hlist
  rw [List.append_cancel_left_eq, Numeral.toDigits_inj] at hmax
  rw [Numeral.toDigits_inj] at hmin
  cases r
  cases r'
  simp_all

end Range

namespace FileName

theorem toList_ofComponent (id : Nat) (range : Range) :
    (ofComponent id range).toList =
      (range.text.toList ++ ['_'] ++ (Numeral.padded 6 id).toList) ++ ending.toList := by
  simp [ofComponent]

theorem underscore_not_mem_text (range : Range) : '_' ∉ range.text.toList := by
  rw [Range.toList_text]
  simp [Numeral.not_mem_toDigits]

theorem underscore_not_mem_padded (id : Nat) : '_' ∉ (Numeral.padded 6 id).toList :=
  fun hmem => absurd (Numeral.isDigit_of_mem_padded hmem) (by decide)

/-- The name of a component file tells number and range: there is one underscore in it, between
their texts. -/
theorem ofComponent_eq_iff {id other : Nat} {range range' : Range} :
    ofComponent id range = ofComponent other range' ↔ id = other ∧ range = range' := by
  refine ⟨fun h => ?_, fun h => h.1 ▸ h.2 ▸ rfl⟩
  have hlist := congrArg String.toList h
  rw [toList_ofComponent, toList_ofComponent, List.append_cancel_right_eq, List.append_assoc,
    List.append_assoc, List.singleton_append, List.singleton_append,
    List.append_cons_inj_of_notMem (underscore_not_mem_text range) (underscore_not_mem_padded id)]
    at hlist
  obtain ⟨hrange, -, hid⟩ := hlist
  exact ⟨Numeral.padded_inj.1 (String.toList_inj.1 hid),
    Range.text_inj.1 (String.toList_inj.1 hrange)⟩

theorem strip?_eq_some_iff {suffix text stem : List Char} :
    strip? suffix text = some stem ↔ text = stem ++ suffix := by
  constructor
  · intro h
    rw [strip?] at h
    split at h
    · rename_i hends
      obtain ⟨front, rfl⟩ := List.isSuffixOf_iff_suffix.1 hends
      simpa using h
    · contradiction
  · rintro rfl
    have hends : suffix.isSuffixOf (stem ++ suffix) = true := by simp
    rw [strip?, if_pos hends, List.length_append, Nat.add_sub_cancel, List.take_left]

theorem behindUnderscore?_append {text behind : List Char} (h : '_' ∉ behind) :
    behindUnderscore? (text ++ ['_'] ++ behind) = some behind := by
  have hmem : '_' ∈ text ++ ['_'] ++ behind := by simp
  have hall : ∀ c ∈ behind.reverse, decide (c ≠ '_') = true := by
    intro c hc
    rw [List.mem_reverse] at hc
    simp only [ne_eq, decide_not, Bool.not_eq_true', decide_eq_false_iff_not]
    rintro rfl
    exact h hc
  rw [behindUnderscore?, if_pos hmem, List.reverse_append, List.takeWhile_append_of_pos hall]
  simp

theorem behindUnderscore?_eq_some_iff {text behind : List Char} :
    behindUnderscore? text = some behind ↔
      ∃ front, text = front ++ ['_'] ++ behind ∧ '_' ∉ behind := by
  constructor
  · intro h
    have hmem : '_' ∈ text := by
      rw [behindUnderscore?] at h
      split at h
      · assumption
      · contradiction
    -- the first underscore from behind is the last one
    obtain ⟨last, front, heq, hnot⟩ := List.eq_append_cons_of_mem (List.mem_reverse.2 hmem)
    have htext : text = front.reverse ++ ['_'] ++ last.reverse := by
      rw [← List.reverse_reverse text, heq]
      simp
    have hlast : '_' ∉ last.reverse := by simpa using hnot
    rw [htext, behindUnderscore?_append hlast] at h
    obtain rfl := Option.some.inj h
    exact ⟨front.reverse, htext, hlast⟩
  · rintro ⟨front, rfl, hnot⟩
    exact behindUnderscore?_append hnot

/-- A name is read just where it has the ending and a number stands between that and the last
underscore. -/
theorem id?_eq_some_iff {name : String} {id : Nat} :
    id? name = some id ↔ ∃ front digits, name.toList = front ++ ['_'] ++ digits ++ ending.toList ∧
      '_' ∉ digits ∧ Numeral.read Numeral.word digits = .ok id := by
  simp only [id?, bind, Option.bind_eq_some_iff, strip?_eq_some_iff, behindUnderscore?_eq_some_iff]
  constructor
  · rintro ⟨stem, hname, digits, ⟨front, rfl, hnot⟩, hread⟩
    refine ⟨front, digits, hname, hnot, ?_⟩
    cases hdigits : Numeral.read Numeral.word digits with
    | error fault => simp [hdigits, Except.toOption] at hread
    | ok n => simpa [hdigits, Except.toOption] using hread
  · rintro ⟨front, digits, hname, hnot, hread⟩
    refine ⟨_, hname, digits, ⟨front, rfl, hnot⟩, ?_⟩
    rw [hread]
    rfl

/-- The number of a component is read back from the name of its file. -/
theorem id?_ofComponent {id : Nat} (h : id < Numeral.word) (range : Range) :
    id? (ofComponent id range) = some id :=
  id?_eq_some_iff.2 ⟨_, _, toList_ofComponent id range, underscore_not_mem_padded id,
    Numeral.read_padded h⟩

/-- A name is taken for that of a component file if something stands before the ending. -/
theorem isComponent_iff {name : String} :
    isComponent name = true ↔ ∃ stem, stem ≠ [] ∧ name.toList = stem ++ ending.toList := by
  rw [isComponent, Bool.and_eq_true, List.isSuffixOf_iff_suffix, decide_eq_true_iff,
    ← String.length_toList, ← String.length_toList]
  constructor
  · rintro ⟨⟨stem, hname⟩, hlength⟩
    refine ⟨stem, ?_, hname.symm⟩
    rintro rfl
    rw [← hname, List.nil_append] at hlength
    exact absurd hlength (Nat.lt_irrefl _)
  · rintro ⟨stem, hstem, hname⟩
    rw [hname, List.length_append]
    exact ⟨List.suffix_append .., Nat.lt_add_of_pos_left (List.length_pos_iff.2 hstem)⟩

theorem isComponent_ofComponent (id : Nat) (range : Range) :
    isComponent (ofComponent id range) = true :=
  isComponent_iff.2 ⟨_, by simp, toList_ofComponent id range⟩

theorem isComponent_of_id? {name : String} {id : Nat} (h : id? name = some id) :
    isComponent name = true := by
  obtain ⟨front, digits, hname, -⟩ := id?_eq_some_iff.1 h
  exact isComponent_iff.2 ⟨_, by simp, hname⟩

theorem length_endings : draftEnding.toList.length = ending.toList.length := by decide

/-- A file under construction is not taken for a component file. -/
theorem isComponent_of_isDraft {name : String} (h : isDraft name = true) :
    isComponent name = false := by
  refine Bool.eq_false_iff.2 fun hcomponent => ?_
  obtain ⟨stem, -, hname⟩ := isComponent_iff.1 hcomponent
  rw [isDraft, List.isSuffixOf_iff_suffix, hname] at h
  obtain ⟨front, hfront⟩ := h
  have hending : draftEnding.toList = ending.toList := (List.append_inj' hfront length_endings).2
  exact absurd hending (by decide)

/-- The file of a component is not under construction. -/
theorem isDraft_ofComponent (id : Nat) (range : Range) :
    isDraft (ofComponent id range) = false := by
  refine Bool.eq_false_iff.2 fun hdraft => ?_
  have hcomponent := isComponent_ofComponent id range
  rw [isComponent_of_isDraft hdraft] at hcomponent
  contradiction

theorem isDraft_draft (name : String) : isDraft (draft name) = true := by
  simp [isDraft, draft]

theorem isComponent_draft (name : String) : isComponent (draft name) = false :=
  isComponent_of_isDraft (isDraft_draft name)

/-- The name of a file under construction is not read. -/
theorem id?_draft (name : String) : id? (draft name) = none := by
  cases hread : id? (draft name) with
  | none => rfl
  | some id =>
    have hcomponent := isComponent_of_id? hread
    rw [isComponent_draft] at hcomponent
    contradiction

/-- The number of a component is read back from the name of its file, the name tells number and
range of the component, and as long as the file is under construction its name is not read. -/
theorem ofComponent_identifies :
    (∀ id range, id < Numeral.word → id? (ofComponent id range) = some id) ∧
    (∀ id other range range', ofComponent id range = ofComponent other range' →
      id = other ∧ range = range') ∧
    ∀ id range, id? (draft (ofComponent id range)) = none := by
  refine ⟨fun id range h => id?_ofComponent h range, ?_, fun id range => id?_draft _⟩
  intro id other range range' h
  exact ofComponent_eq_iff.1 h

/-- The largest number is longer than it would be filled up to and read back, and a range with the
same digits cut in another place has another name. -/
theorem largest_number_read_back :
    id? (ofComponent 18446744073709551615 ⟨33, 40⟩) = some 18446744073709551615 ∧
      ofComponent 7 ⟨21, 90⟩ ≠ ofComponent 7 ⟨1, 902⟩ ∧
      id? (draft (ofComponent 7 ⟨33, 40⟩)) = none := by
  refine ⟨ofComponent_identifies.1 _ _ (by decide), ?_, ofComponent_identifies.2.2 _ _⟩
  intro h
  obtain ⟨-, hrange⟩ := ofComponent_identifies.2.1 _ _ _ _ h
  exact absurd hrange (by decide)

end FileName

end Strata
