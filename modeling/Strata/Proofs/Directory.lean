import Strata.Directory

/-!
# Files by ascending name

Writing and removing files keeps them in the order of their names. In that order each name occurs
once, so a file is found just where it stands in the list.
-/

namespace Strata.Directory

/-- Files stand by ascending name. -/
def Sorted (d : Directory) : Prop := d.files.Pairwise fun a b => a.1 < b.1

theorem sorted_empty : Sorted {} := List.Pairwise.nil

theorem mem_put {name : String} {file : Bytes} {files : List (String × Bytes)} {f : String × Bytes}
    (h : f ∈ put name file files) : f = (name, file) ∨ f ∈ files := by
  induction files with
  | nil => exact .inl (by simpa [put] using h)
  | cons first rest ih =>
    obtain ⟨other, bytes⟩ := first
    simp only [put] at h
    split at h
    · exact List.mem_cons.1 h
    · split at h
      · exact (List.mem_cons.1 h).imp id fun h => List.mem_cons_of_mem _ h
      · rcases List.mem_cons.1 h with rfl | h
        · exact .inr List.mem_cons_self
        · exact (ih h).imp id fun h => List.mem_cons_of_mem _ h

theorem sorted_write {d : Directory} (h : d.Sorted) (name : String) (file : Bytes) :
    (d.write name file).Sorted := by
  obtain ⟨files⟩ := d
  show (put name file files).Pairwise _
  induction files with
  | nil => simp [put]
  | cons first rest ih =>
    obtain ⟨other, bytes⟩ := first
    obtain ⟨hfirst, hrest⟩ := List.pairwise_cons.1 h
    simp only [put]
    split
    · rename_i hlt
      refine List.pairwise_cons.2 ⟨fun f hf => ?_, h⟩
      rcases List.mem_cons.1 hf with rfl | hf
      · exact hlt
      · exact String.lt_trans hlt (hfirst f hf)
    · split
      · rename_i heq
        subst heq
        exact List.pairwise_cons.2 ⟨hfirst, hrest⟩
      · rename_i hlt hne
        have hother : other < name := by
          refine Decidable.byContradiction fun hnot => ?_
          exact hne (String.le_antisymm (String.not_lt.1 hnot) (String.not_lt.1 hlt))
        refine List.pairwise_cons.2 ⟨fun f hf => ?_, ih hrest⟩
        rcases mem_put hf with rfl | hf
        · exact hother
        · exact hfirst f hf

theorem sorted_sublist {d d' : Directory} (h : d.Sorted) (hsub : List.Sublist d'.files d.files) :
    d'.Sorted :=
  List.Pairwise.sublist hsub h

theorem sorted_erase {d : Directory} (h : d.Sorted) (name : String) : (d.erase name).Sorted :=
  sorted_sublist h List.filter_sublist

/-- Names in ascending order are all different. -/
theorem nodup_names {d : Directory} (h : d.Sorted) : d.names.Nodup := by
  refine List.pairwise_map.2 (List.Pairwise.imp ?_ h)
  intro a b hlt heq
  rw [heq] at hlt
  exact String.lt_irrefl _ hlt

theorem find?_eq_some_iff {d : Directory} (h : d.Sorted) {name : String} {file : Bytes} :
    d.find? name = some file ↔ (name, file) ∈ d.files := by
  obtain ⟨files⟩ := d
  show files.lookup name = some file ↔ (name, file) ∈ files
  induction files with
  | nil => simp
  | cons first rest ih =>
    obtain ⟨other, bytes⟩ := first
    obtain ⟨hfirst, hrest⟩ := List.pairwise_cons.1 h
    rw [Lookup.lookup_cons, List.mem_cons, Prod.mk.injEq]
    by_cases hname : name = other
    · rw [if_pos hname, Option.some.injEq]
      constructor
      · intro heq
        exact .inl ⟨hname, heq.symm⟩
      · rintro (⟨-, heq⟩ | hmem)
        · exact heq.symm
        · have hlt := hfirst _ hmem
          rw [hname] at hlt
          exact absurd hlt (String.lt_irrefl _)
    · rw [if_neg hname, ih hrest]
      simp [hname]

/-- The files whose names are kept. -/
def only (d : Directory) (keep : String → Bool) : Directory := ⟨d.files.filter fun f => keep f.1⟩

theorem find?_only (d : Directory) (keep : String → Bool) (name : String) :
    (d.only keep).find? name = if keep name then d.find? name else none :=
  Lookup.lookup_filter keep name d.files

/-- The directory without some files. -/
def without (d : Directory) (names : List String) : Directory := d.only fun name => name ∉ names

@[simp] theorem without_nil (d : Directory) : d.without [] = d := by
  obtain ⟨files⟩ := d
  simp [without, only]

theorem without_erase (d : Directory) (name : String) (names : List String) :
    (d.erase name).without names = d.without (name :: names) := by
  simp only [without, only, erase, List.filter_filter, List.mem_cons, not_or, mk.injEq]
  refine List.filter_congr fun f _ => ?_
  by_cases hname : f.1 = name <;> simp [hname]

theorem without_without (d : Directory) (names others : List String) :
    (d.without names).without others = d.without (names ++ others) := by
  simp only [without, only, List.filter_filter, List.mem_append, not_or, mk.injEq]
  refine List.filter_congr fun f _ => ?_
  by_cases hname : f.1 ∈ names <;> simp [hname]

/-- Of a directory with fewer files, what is found is found in the other too. -/
theorem find?_of_sublist {d d' : Directory} (h : d.Sorted) (hsub : List.Sublist d'.files d.files)
    {name : String} {file : Bytes} (hfind : d'.find? name = some file) :
    d.find? name = some file :=
  (find?_eq_some_iff h).2 (hsub.subset ((find?_eq_some_iff (sorted_sublist h hsub)).1 hfind))

theorem mem_names_iff {d : Directory} (h : d.Sorted) {name : String} :
    name ∈ d.names ↔ ∃ file, d.find? name = some file := by
  rw [names, List.mem_map]
  constructor
  · rintro ⟨⟨other, file⟩, hmem, rfl⟩
    exact ⟨file, (find?_eq_some_iff h).2 hmem⟩
  · rintro ⟨file, hfind⟩
    exact ⟨(name, file), (find?_eq_some_iff h).1 hfind, rfl⟩

end Strata.Directory
