import Mathlib.Data.List.Sort
import Strata.Proofs.Store.Outermost
import Strata.Proofs.Store.Recency
import Strata.Proofs.Store.Shelved

/-!
# The sizes of components that are opened again

What is left of the directory of an index at rest has the files of all components listed, and the
range of whatever else was seen lies inside one of theirs. So an index that is opened on it lists
components of the same ranges. Where files of components merged away are as long as that of a
component listed if they have its very range, all sizes are the same too.
-/

namespace Strata

instance : Std.Irrefl Range.Ahead := ⟨fun _ h => Nat.lt_irrefl _ h.1⟩

instance : Std.Antisymm Range.Ahead := ⟨fun _ _ h h' => absurd h.1 (Nat.lt_asymm h'.1)⟩

namespace Store

variable {s t : Store} {seen : String → Bytes → Prop} {chart : Chart}
  {listed known : List Component}

/-- An index that is opened on charted files has its files in their places, and no others. -/
theorem shelved_of_openOn {d d' : Directory} {options : Options} {codec : Codec}
    (hcovers : chart.Covers seen) (hword : ∀ n range, chart n = some range → n < Numeral.word)
    (hsorted : d.Sorted) (hseen : d.Within seen) (hopen : openOn options codec d = (d', .ok t)) :
    ∃ chart' listed,
      Recovery.recover options.folder (options.format codec) d.names d = (t.files, .ok listed) ∧
        Shelved t t.files.Has chart' listed listed := by
  obtain ⟨chart', listed, hrecover, hr⟩ := ranked_of_openOn hcovers hword hsorted hseen hopen
  obtain ⟨-, hsorted', winners, houtermost, hfiles, hpairs⟩ :=
    Recovery.outermost_of_recover hsorted hrecover
  have hname : ∀ w ∈ winners, ∀ c, Recovery.Yields w c →
      FileName.ofComponent c.id c.range = w.name := by
    intro w hw c hyields
    have hin := houtermost.found w hw
    obtain ⟨n, hon⟩ := Found.exists_on hcovers hword hin (hseen _ _ hin.component hin.lies)
    rw [Component.id, hyields.number n hon.id, hyields.range, hon.name]
  have hplaces : ∀ c ∈ listed, c.InPlace t.files := by
    intro c hc
    obtain ⟨w, hw, hyields⟩ := exists_left hpairs hc
    have hlies := (hfiles w.name w.file (houtermost.found w hw).component).2 ⟨w, hw, rfl, rfl⟩
    have heq := hname w hw c hyields
    refine ⟨heq ▸ hyields.file, w.file, heq ▸ hlies, ?_⟩
    rw [hyields.size, (Archive.size_of_ofBytes (houtermost.found w hw).opened).1]
  have hopened : (∀ c, ¬ t.Pends c) ∧ t.retired = [] := by
    obtain ⟨policy, components, -, -, hcomponents⟩ := openOn_eq_ok_iff.1 hopen
    obtain ⟨-, -, -, rfl⟩ := ofComponents_eq_ok_iff.1 hcomponents
    refine ⟨fun c hpends => ?_, rfl⟩
    obtain ⟨job, hjob, -⟩ := hpends
    simp at hjob
  exact ⟨chart', listed, hrecover, { hr with
    sorted := hsorted'
    named := fun c hc => (hplaces c hc).named
    places := fun c hplace => hplaces c (hplace.resolve_right (hopened.1 c))
    retired := by simp [hopened.2]
    accounted := fun name file hcomponent hfile => by
      obtain ⟨w, hw, rfl, -⟩ := (hfiles name file hcomponent).1 hfile
      obtain ⟨c, hc, hyields⟩ := exists_right hpairs hw
      exact ⟨c, .inl hc, (hname w hw c hyields).symm⟩ }⟩

/-- What is left of the directory of an index: the files of all components listed, and of others any
that were seen. A file with just the range of a component listed is as long as its file. -/
structure Leaves (s : Store) (seen : String → Bytes → Prop) (d : Directory) : Prop where
  sorted : d.Sorted
  within : d.Within seen
  listed : ∀ c ∈ s.board.roster.newestFirst, ∀ name, c.file = .ok name →
    d.find? name = s.files.find? name
  twins : ∀ c ∈ s.board.roster.newestFirst, ∀ id, id ≠ c.id → ∀ file,
    d.find? (FileName.ofComponent id c.range) = some file → file.length = c.size

namespace Shelved

variable {d d' : Directory} {folder : String} {format : Format} {components : List Component}
  {f : Found}

/-- The file of a component listed is among those that are left. -/
theorem find?_left (h : Shelved s seen chart listed known) (hleft : s.Leaves seen d) {c : Component}
    (hc : c ∈ listed) :
    ∃ file, d.find? (FileName.ofComponent c.id c.range) = some file ∧ file.length = c.size := by
  obtain ⟨hnamed, file, hfile, hsize⟩ := h.places c (.inl hc)
  rw [← Roster.newestFirst_of_lists h.lists] at hc
  exact ⟨file, (hleft.listed c hc _ hnamed).trans hfile, hsize⟩

theorem exists_on (h : Shelved s seen chart listed known) (hleft : s.Leaves seen d)
    (hf : f.In folder format d) : ∃ n, f.On chart n :=
  Found.exists_on h.covers (fun _ _ => h.word) hf (hleft.within _ _ hf.component hf.lies)

/-- Once results are all in place, whatever is left lies inside a component listed. -/
theorem exists_contains (h : Shelved s seen chart listed known) (hnone : ∀ c, ¬ s.Pends c)
    (hleft : s.Leaves seen d) (hf : f.In folder format d) :
    ∃ c ∈ listed, c.range.contains f.range = true := by
  obtain ⟨n, hon⟩ := h.exists_on hleft hf
  obtain ⟨c, hplace, hcontains⟩ := h.home n f.range hon.range
  exact ⟨c, hplace.resolve_right (hnone c), hcontains⟩

/-- The ranges of components listed descend at both ends. -/
theorem descending (h : Shelved s seen chart listed known) :
    listed.Pairwise fun b c => b.range.Ahead c.range := by
  refine h.newer.imp_of_mem fun {a b} ha hb hab => ?_
  have hbelow : b.range.max < a.range.min := hab
  have hordered := h.bounds a ha
  have hordered' := h.bounds b hb
  rw [Range.Ahead]
  omega

/-- The directory of an index that has no more files to remove, and no results to put in place, is
what is left of it if nobody touches it. -/
theorem leaves_files (h : Shelved s seen chart listed known) (hnone : ∀ c, ¬ s.Owes c) :
    s.Leaves seen s.files where
  sorted := h.sorted
  within := h.files
  listed _ _ _ _ := rfl
  twins c hc id hid file hfile := by
    rw [Roster.newestFirst_of_lists h.lists] at hc
    obtain ⟨b, hplace, hname⟩ :=
      h.accounted _ file (FileName.isComponent_ofComponent ..) hfile
    obtain ⟨hids, hranges⟩ := FileName.ofComponent_eq_iff.1 hname
    obtain rfl := Range.eq_of_contains_of_ahead h.descending (hplace.resolve_right (hnone b)) hc
      (hranges ▸ Range.contains_self _)
    exact absurd hids hid

/-- Once results are all in place, what a recovery finds outermost has the ranges of the components
listed. -/
theorem ranges_of_outermost (h : Shelved s seen chart listed known) (hnone : ∀ c, ¬ s.Pends c)
    (hleft : s.Leaves seen d)
    (hopens : ∀ name ∈ d.names, FileName.isComponent name = true →
      ∃ f : Found, f.name = name ∧ f.In folder format d)
    {winners : List Found} (houtermost : Recovery.Outermost folder format d winners) :
    winners.map Found.range = listed.map Component.range := by
  have hown : ∀ c ∈ listed, ∃ f : Found, f.In folder format d ∧ f.range = c.range := by
    intro c hc
    obtain ⟨file, hfile, -⟩ := h.find?_left hleft hc
    obtain ⟨f, hname, hf⟩ := hopens _ ((Directory.mem_names_iff hleft.sorted).2 ⟨file, hfile⟩)
      (FileName.isComponent_ofComponent ..)
    obtain ⟨n, hon⟩ := h.exists_on hleft hf
    exact ⟨f, hf, (FileName.ofComponent_eq_iff.1 (hon.name.symm.trans hname)).2⟩
  refine List.Pairwise.eq_of_mem_iff (List.pairwise_map.2 houtermost.descending)
    (List.pairwise_map.2 h.descending) fun range => ?_
  rw [List.mem_map, List.mem_map]
  constructor
  · rintro ⟨w, hw, rfl⟩
    obtain ⟨c, hc, hcontains⟩ := h.exists_contains hnone hleft (houtermost.found w hw)
    obtain ⟨f, hf, hrange⟩ := hown c hc
    rw [← hrange] at hcontains
    exact ⟨c, hc, hrange.symm.trans (houtermost.maximal w hw f hf hcontains)⟩
  · rintro ⟨c, hc, rfl⟩
    obtain ⟨f, hf, hrange⟩ := hown c hc
    obtain ⟨w, hw, hcontains⟩ := houtermost.covers f hf
    obtain ⟨b, hb, hinside⟩ := h.exists_contains hnone hleft (houtermost.found w hw)
    rw [hrange] at hcontains
    -- what covers the range of one component listed lies inside one, which can only be the same
    obtain rfl := Range.eq_of_contains_of_ahead h.descending hb hc
      (Range.contains_trans hinside hcontains)
    exact ⟨w, hw, Range.eq_of_contains hcontains hinside⟩

/-- Whatever is left of the range of a component listed has its size. -/
theorem size_of_range (h : Shelved s seen chart listed known) (hleft : s.Leaves seen d)
    (hf : f.In folder format d) {c : Component} (hc : c ∈ listed) (hrange : f.range = c.range) :
    f.archive.size = c.size := by
  obtain ⟨n, hon⟩ := h.exists_on hleft hf
  rw [(Archive.size_of_ofBytes hf.opened).1]
  have hlies := hf.lies
  rw [hon.name, hrange] at hlies
  by_cases hid : Numeral.wrapped n = c.id
  · obtain ⟨file, hfile, hsize⟩ := h.find?_left hleft hc
    rw [hid, hfile] at hlies
    rw [← Option.some.inj hlies, hsize]
  · rw [← Roster.newestFirst_of_lists h.lists] at hc
    exact hleft.twins c hc _ hid _ hlies

/-- Once results are all in place, what is recovered of the files left has the sizes of the
components listed. -/
theorem sizes_of_recover (h : Shelved s seen chart listed known) (hnone : ∀ c, ¬ s.Pends c)
    (hleft : s.Leaves seen d)
    (hrecover : Recovery.recover folder format d.names d = (d', .ok components)) :
    components.map Component.size = listed.map Component.size := by
  obtain ⟨hopens, -, winners, houtermost, -, hpairs⟩ :=
    Recovery.outermost_of_recover hleft.sorted hrecover
  have hranges := h.ranges_of_outermost hnone hleft hopens houtermost
  rw [map_eq hpairs fun w c hyields => hyields.size]
  rw [← List.forall₂_eq_eq_eq, List.forall₂_map_left_iff, List.forall₂_map_right_iff] at hranges
  have hwinners := (List.forall₂_and_left (p := (· ∈ winners)) ..).2 ⟨fun w hw => hw, hranges⟩
  have hlisted := (List.forall₂_and_left (p := (· ∈ listed)) ..).2 ⟨fun c hc => hc, hwinners.flip⟩
  exact map_eq hlisted fun c w ⟨hc, hw, hrange⟩ =>
    h.size_of_range hleft (houtermost.found w hw) hc hrange

end Shelved

end Store

end Strata
