import Strata.Tuple

/-!
# Key bytes tell keys apart

Every byte of a number of varying length but the last carries the continuation bit, so none of
these encodings is the beginning of another. Key bytes put one in front of each field; so they begin
with those of other fields just where the fields begin with these, and are the same just for the
same fields, whatever the lengths of the fields.
-/

namespace Strata

namespace Varint

/-- The groups above the last one carry the continuation bit. -/
theorem le_of_mem_leading {n : Nat} {b : UInt8} (h : b ∈ leading n) : 128 ≤ b.toNat := by
  fun_induction leading n with
  | case1 => simp at h
  | case2 n hn ih =>
    rcases List.mem_append.1 h with h | h
    · exact ih h
    · rw [List.mem_singleton] at h
      rw [h, UInt8.toNat_ofNat']
      omega

theorem leading_eq_nil_iff {n : Nat} : leading n = [] ↔ n = 0 := by
  rw [leading]
  split <;> simp_all

theorem leading_injective {n m : Nat} (h : leading n = leading m) : n = m := by
  fun_induction leading n generalizing m with
  | case1 => exact (leading_eq_nil_iff.1 h.symm).symm
  | case2 n hn ih =>
    rw [leading.eq_def m] at h
    split at h
    · simp at h
    · obtain ⟨hleading, hlast⟩ := List.append_inj' h rfl
      have hhigh := ih hleading
      have hlow := congrArg UInt8.toNat (List.singleton_inj.1 hlast)
      rw [UInt8.toNat_ofNat', UInt8.toNat_ofNat'] at hlow
      omega

/-- Two byte strings cut behind the first byte without the continuation bit. -/
theorem append_inj_of_last {xs ys r s : Bytes} {x y : UInt8} (hxs : ∀ b ∈ xs, 128 ≤ b.toNat)
    (hys : ∀ b ∈ ys, 128 ≤ b.toNat) (hx : x.toNat < 128) (hy : y.toNat < 128)
    (h : xs ++ x :: r = ys ++ y :: s) : xs = ys ∧ x = y ∧ r = s := by
  induction xs generalizing ys with
  | nil =>
    cases ys with
    | nil => simpa using h
    | cons b ys =>
      obtain ⟨rfl, -⟩ := List.cons.inj h
      have := hys x (by simp)
      omega
  | cons a xs ih =>
    cases ys with
    | nil =>
      obtain ⟨rfl, -⟩ := List.cons.inj h
      have := hxs a (by simp)
      omega
    | cons b ys =>
      obtain ⟨rfl, hrest⟩ := List.cons.inj h
      rw [List.forall_mem_cons] at hxs hys
      obtain ⟨rfl, hboth⟩ := ih hxs.2 hys.2 hrest
      exact ⟨rfl, hboth⟩

/-- No encoding is the beginning of another. -/
theorem encode_append_inj {n m : Nat} {r s : Bytes} (h : encode n ++ r = encode m ++ s) :
    n = m ∧ r = s := by
  have hlow : ∀ k, (UInt8.ofNat (k % 128)).toNat = k % 128 := by
    intro k
    rw [UInt8.toNat_ofNat']
    omega
  simp only [encode, List.append_assoc, List.singleton_append] at h
  obtain ⟨hleading, hlast, hrest⟩ := append_inj_of_last (fun _ => le_of_mem_leading)
    (fun _ => le_of_mem_leading) (by rw [hlow]; omega) (by rw [hlow]; omega) h
  have hhigh := leading_injective hleading
  have hlast := congrArg UInt8.toNat hlast
  rw [hlow, hlow] at hlast
  exact ⟨by omega, hrest⟩

end Varint

namespace Tuple

theorem framed_append (fields others : Tuple) :
    framed (fields ++ others) = framed fields ++ framed others := by
  simp [framed]

theorem framed_cons_ne_nil (f : Bytes) (fields : Tuple) : framed (f :: fields) ≠ [] := by
  intro hnil
  have hlength := congrArg List.length hnil
  have hpos := Varint.size_pos f.length
  simp only [framed_cons, List.length_append, Varint.length_encode, List.length_nil] at hlength
  omega

/-- Key bytes begin with those of other fields just where the fields begin with these. -/
theorem framed_prefix_iff {a b : Tuple} : framed a <+: framed b ↔ a <+: b := by
  constructor
  · intro h
    induction a generalizing b with
    | nil => exact List.nil_prefix
    | cons f a ih =>
      cases b with
      | nil => exact absurd (List.prefix_nil.1 h) (framed_cons_ne_nil f a)
      | cons g b =>
        obtain ⟨rest, heq⟩ := h
        simp only [framed_cons, List.append_assoc] at heq
        -- the lengths in front are the same, so the fields are cut off at the same place
        obtain ⟨hlength, hfields⟩ := Varint.encode_append_inj heq
        obtain ⟨rfl, hothers⟩ := List.append_inj hfields hlength
        exact (List.prefix_cons_inj f).2 (ih ⟨rest, hothers⟩)
  · rintro ⟨rest, rfl⟩
    exact ⟨framed rest, (framed_append a rest).symm⟩

/-- Key bytes are the same just for the same fields. -/
theorem framed_injective {a b : Tuple} (h : framed a = framed b) : a = b := by
  have hab : a <+: b := framed_prefix_iff.1 (h ▸ List.prefix_rfl)
  have hba : b <+: a := framed_prefix_iff.1 (h ▸ List.prefix_rfl)
  exact hab.eq_of_length (Nat.le_antisymm hab.length_le hba.length_le)

theorem keyBytes_eq_iff {a b : Tuple} {j k : Nat} :
    keyBytes a j = keyBytes b k ↔ a.take j = b.take k := by
  constructor
  · intro h
    exact framed_injective h
  · intro h
    rw [keyBytes, h, keyBytes]

/-- Two tuples have the same key bytes just where they have the same key fields. The key bytes of
leading fields begin those of others, and differ from them, just where the fields do. -/
theorem keyBytes_tell_keys_apart (a b : Tuple) :
    (∀ k, keyBytes a k = keyBytes b k ↔ a.take (min k a.length) = b.take (min k b.length)) ∧
    ∀ j k, keyBytes a j <+: keyBytes b k ∧ keyBytes a j ≠ keyBytes b k ↔
      a.take j <+: b.take k ∧ a.take j ≠ b.take k := by
  constructor
  · intro k
    rw [keyBytes_eq_iff, ← List.take_eq_take_min, ← List.take_eq_take_min]
  · intro j k
    exact and_congr framed_prefix_iff (not_congr keyBytes_eq_iff)

end Tuple

end Strata
