import Strata.Proofs.Store.Recovery

/-!
# Charts of component files

A chart has the range of every component file that may turn up in a directory, by the count of its
component. Of two ranges on a chart one covers the other, or they lie apart. So whatever the files
hold, and whichever of them a recovery finds, the components it keeps come by range, the newest
first.
-/

namespace Strata

namespace Range

/-- All flushes of one range are newer than those of another. -/
def Apart (a b : Range) : Prop := a.max < b.min ∨ b.max < a.min

/-- One range covers another, or they lie apart. -/
def Nests (a b : Range) : Prop := a.contains b = true ∨ b.contains a = true ∨ a.Apart b

variable {a b c : Range}

theorem nests_self (a : Range) : a.Nests a := .inl (contains_self a)

theorem Nests.symm (h : a.Nests b) : b.Nests a := by
  rcases h with hab | hba | hapart
  · exact .inr (.inl hab)
  · exact .inl hba
  · exact .inr (.inr hapart.symm)

/-- What lies inside a range is apart from what that range is apart from. -/
theorem Apart.mono (h : a.Apart b) (hbc : b.contains c = true) : a.Apart c := by
  rw [contains_iff] at hbc
  rcases h with hab | hba
  · exact .inl (Nat.lt_of_lt_of_le hab hbc.1)
  · exact .inr (Nat.lt_of_le_of_lt hbc.2 hba)

/-- A range that covers or lies apart from another does so with what lies inside that one. -/
theorem nests_of_contains (h : a.contains b = true ∨ a.Apart b) (hbc : b.contains c = true) :
    a.Nests c :=
  h.elim (fun hab => .inl (contains_trans hab hbc)) fun hapart => .inr (.inr (hapart.mono hbc))

end Range

/-- The ranges of component files, by the counts of their components. -/
abbrev Chart := Nat → Option Range

namespace Chart

/-- The component files seen are on the chart: their names and footers tell the ranges it has. -/
structure Covers (chart : Chart) (seen : String → Bytes → Prop) : Prop where
  ordered : ∀ n range, chart n = some range → range.min ≤ range.max
  nests : ∀ m n range other, chart m = some range → chart n = some other → range.Nests other
  named : ∀ name file, FileName.isComponent name = true → seen name file → ∃ n range,
    chart n = some range ∧ name = FileName.ofComponent (Numeral.wrapped n) range ∧
      Archive.Tells file range

/-- The chart of a directory in which no component file may turn up. -/
def blank : Chart := fun _ => none

theorem covers_blank : blank.Covers fun _ _ => False :=
  ⟨fun _ _ hn => (nomatch hn), fun _ _ _ _ hn => (nomatch hn), fun _ _ _ hseen => hseen.elim⟩

/-- The part of a chart that has some counts. -/
def only (chart : Chart) (serials : List Nat) : Chart := fun n =>
  if n ∈ serials then chart n else none

/-- The chart with the range of one more component. -/
def add (chart : Chart) (serial : Nat) (range : Range) : Chart := fun n =>
  if n = serial then some range else chart n

variable {chart : Chart} {seen : String → Bytes → Prop}

theorem only_eq_some_iff {serials : List Nat} {n : Nat} {range : Range} :
    chart.only serials n = some range ↔ n ∈ serials ∧ chart n = some range := by
  simp [only]

theorem add_eq_some_iff {serial n : Nat} {range other : Range} :
    chart.add serial range n = some other ↔
      n = serial ∧ range = other ∨ n ≠ serial ∧ chart n = some other := by
  by_cases h : n = serial <;> simp [add, h]

theorem add_of_ne {serial n : Nat} (range : Range) (h : n ≠ serial) :
    chart.add serial range n = chart n := by
  simp [add, h]

theorem Covers.mono (h : chart.Covers seen) {fewer : String → Bytes → Prop}
    (hsub : ∀ name file, FileName.isComponent name = true → fewer name file → seen name file) :
    chart.Covers fewer :=
  ⟨h.ordered, h.nests, fun name file hname hfewer =>
    h.named name file hname (hsub name file hname hfewer)⟩

/-- A file is put on a chart that is ready for its range. -/
theorem Covers.add (h : chart.Covers seen) {serial : Nat} {range : Range} {file : Bytes}
    (hnew : chart serial = none) (hordered : range.min ≤ range.max)
    (hnests : ∀ n other, chart n = some other → range.Nests other)
    (htells : Archive.Tells file range) :
    (chart.add serial range).Covers fun other bytes => seen other bytes ∨
      other = FileName.ofComponent (Numeral.wrapped serial) range ∧ bytes = file where
  ordered n other hn := by
    rcases add_eq_some_iff.1 hn with ⟨-, rfl⟩ | ⟨-, hn⟩
    · exact hordered
    · exact h.ordered n other hn
  nests m n range' other hm hn := by
    rcases add_eq_some_iff.1 hm with ⟨-, rfl⟩ | ⟨-, hm⟩
    · rcases add_eq_some_iff.1 hn with ⟨-, rfl⟩ | ⟨-, hn⟩
      · exact Range.nests_self _
      · exact hnests n other hn
    · rcases add_eq_some_iff.1 hn with ⟨-, rfl⟩ | ⟨-, hn⟩
      · exact (hnests m range' hm).symm
      · exact h.nests m n range' other hm hn
  named other bytes hother hseen := by
    rcases hseen with hseen | ⟨rfl, rfl⟩
    · obtain ⟨n, range', hn, hrest⟩ := h.named other bytes hother hseen
      refine ⟨n, range', add_eq_some_iff.2 (.inr ⟨?_, hn⟩), hrest⟩
      rintro rfl
      rw [hnew] at hn
      contradiction
    · exact ⟨serial, range, add_eq_some_iff.2 (.inl ⟨rfl, rfl⟩), rfl, htells⟩

end Chart

/-- A file that was found is the one that a chart has for a count. -/
structure Found.On (chart : Chart) (f : Found) (n : Nat) : Prop where
  range : chart n = some f.range
  id : f.id = some n
  name : f.name = FileName.ofComponent (Numeral.wrapped n) f.range

/-- A charted file that can be opened is on the chart. -/
theorem Found.exists_on {chart : Chart} {seen : String → Bytes → Prop} {folder : String}
    {format : Format} {d : Directory} {f : Found} (hcovers : chart.Covers seen)
    (hword : ∀ n range, chart n = some range → n < Numeral.word) (hf : f.In folder format d)
    (hseen : seen f.name f.file) : ∃ n, f.On chart n := by
  obtain ⟨n, range, hn, hname, htells⟩ := hcovers.named f.name f.file hf.component hseen
  obtain rfl : f.range = range := htells _ _ _ _ hf.opened
  refine ⟨n, hn, ?_, hname⟩
  rw [hf.id, hname, FileName.id?_ofComponent (Numeral.wrapped_lt _),
    Numeral.wrapped_of_lt (hword n _ hn)]

/-- A file that comes before another in a recovery covers it, or is newer. -/
theorem Found.contains_or_lt {f g : Found} (hbefore : f.before g = true)
    (hordered : g.range.min ≤ g.range.max) (hnests : f.range.Nests g.range) :
    f.range.contains g.range = true ∨ g.range.max < f.range.min := by
  rw [Found.before_iff] at hbefore
  rw [Range.Nests, Range.Apart, Range.contains_iff, Range.contains_iff] at hnests
  rw [Range.contains_iff]
  omega

namespace Recovery

variable {chart : Chart} {seen : String → Bytes → Prop} {folder : String} {format : Format}
  {d d' : Directory}

/-- Of charted component files, all that have one of the names are found. No component file is
removed on the way. -/
theorem collect_charted (hcovers : chart.Covers seen)
    (hword : ∀ n range, chart n = some range → n < Numeral.word) {names : List String}
    {found : List Found}
    (hseen : ∀ name file, FileName.isComponent name = true → d.find? name = some file →
      seen name file)
    (hcollect : collect folder format names d = (d', .ok found)) :
    (∀ name, FileName.isComponent name = true → d'.find? name = d.find? name) ∧
      (∀ name ∈ names, FileName.isComponent name = true → ∃ f ∈ found, f.name = name) ∧
      ∀ f ∈ found, ∃ n, f.On chart n := by
  induction names generalizing d found with
  | nil =>
    obtain ⟨rfl, hfound⟩ := Prod.mk.inj hcollect
    obtain rfl := Except.ok.inj hfound
    exact ⟨fun _ _ => rfl, by simp, by simp⟩
  | cons name names ih =>
    rw [collect] at hcollect
    split at hcollect
    · rename_i hdraft
      have herase : ∀ other, FileName.isComponent other = true →
          (d.erase name).find? other = d.find? other :=
        fun other => Directory.find?_erase_draft d hdraft
      obtain ⟨hsame, hnames, hfound⟩ := ih (fun other file hcomponent hfile =>
        hseen other file hcomponent (herase other hcomponent ▸ hfile)) hcollect
      refine ⟨fun other hcomponent => (hsame other hcomponent).trans (herase other hcomponent),
        List.forall_mem_cons.2 ⟨fun hcomponent => ?_, hnames⟩, hfound⟩
      rw [FileName.isComponent_of_isDraft hdraft] at hcomponent
      contradiction
    · split at hcollect
      · rename_i hcomponent
        obtain ⟨hsame, hnames, hfound⟩ := ih hseen hcollect
        refine ⟨hsame, List.forall_mem_cons.2 ⟨fun hcomponent' => ?_, hnames⟩, hfound⟩
        simp [hcomponent'] at hcomponent
      · rename_i hcomponent
        simp only [Bool.not_eq_true', Bool.not_eq_false] at hcomponent
        split at hcollect
        · simp at hcollect
        · rename_i file hread
          split at hcollect
          · simp at hcollect
          · rename_i archive hopen
            split at hcollect
            · simp at hcollect
            · rename_i d' found' hrest
              obtain ⟨rfl, hfound'⟩ := Prod.mk.inj hcollect
              obtain rfl := Except.ok.inj hfound'
              obtain ⟨hsame, hnames, hfound⟩ := ih hseen hrest
              have hlies := Directory.read_eq_ok_iff.1 hread
              have hin : Found.In folder format d ⟨name, FileName.id? name, archive, file⟩ :=
                ⟨hcomponent, hlies, rfl, hopen⟩
              refine ⟨hsame, List.forall_mem_cons.2 ⟨fun _ => ⟨_, List.mem_cons_self, rfl⟩, ?_⟩,
                List.forall_mem_cons.2
                  ⟨Found.exists_on hcovers hword hin (hseen name file hcomponent hlies), hfound⟩⟩
              intro other hother hcomponent'
              obtain ⟨f, hf, heq⟩ := hnames other hother hcomponent'
              exact ⟨f, List.mem_cons_of_mem _ hf, heq⟩

/-- What a recovery makes of charted files: components that come by range, the newest first, each as
the chart has it. A file that was found and is still there afterwards is that of one of them. -/
structure Lists (chart : Chart) (found : List Found) (d d' : Directory)
    (components : List Component) : Prop where
  newer : components.Pairwise Component.Newer
  charted : ∀ c ∈ components, chart c.serial = some c.range
  fewer : ∀ name file, d'.find? name = some file → d.find? name = some file
  stays : ∀ f ∈ found, ∀ file, d'.find? f.name = some file →
    ∃ c ∈ components, f.id = some c.serial

/-- What has been kept of charted files, and what is left to be gone through: each file that is left
is older than those kept, or lies inside their ranges. -/
structure Charted (chart : Chart) (kept : List Component) (found : List Found) : Prop where
  on : ∀ f ∈ found, ∃ n, f.On chart n
  sorted : found.Pairwise fun f g => f.before g = true
  newer : kept.Pairwise Component.Newer
  charted : ∀ c ∈ kept, chart c.serial = some c.range
  older : ∀ c ∈ kept, ∀ f ∈ found,
    c.range.contains f.range = true ∨ f.range.max < c.range.min

/-- A file may be passed over. -/
theorem Charted.skip {kept : List Component} {f : Found} {found : List Found}
    (h : Charted chart kept (f :: found)) : Charted chart kept found :=
  ⟨fun g hg => h.on g (List.mem_cons_of_mem _ hg), (List.pairwise_cons.1 h.sorted).2, h.newer,
    h.charted, fun c hc g hg => h.older c hc g (List.mem_cons_of_mem _ hg)⟩

/-- A file is kept where no kept one covers it: it is older than all of these. -/
theorem Charted.keep {kept : List Component} {f : Found} {found : List Found} {c : Component}
    (hcovers : chart.Covers seen) (h : Charted chart kept (f :: found))
    (hserial : chart c.serial = some f.range) (hrange : c.range = f.range)
    (hout : ¬ kept.any (·.range.contains f.range) = true) :
    Charted chart (kept ++ [c]) found where
  on := h.skip.on
  sorted := h.skip.sorted
  newer := by
    refine List.pairwise_append.2 ⟨h.newer, List.pairwise_singleton _ _, fun b hb c' hc' => ?_⟩
    obtain rfl := List.mem_singleton.1 hc'
    have hcovered : ¬ b.range.contains f.range = true := fun hcontains =>
      hout (List.any_eq_true.2 ⟨b, hb, hcontains⟩)
    show c'.range.max < b.range.min
    rw [hrange]
    exact (h.older b hb f List.mem_cons_self).resolve_left hcovered
  charted b hb := by
    rcases List.mem_append.1 hb with hb | hb
    · exact h.charted b hb
    · rw [List.mem_singleton.1 hb, hserial, hrange]
  older b hb g hg := by
    rcases List.mem_append.1 hb with hb | hb
    · exact h.skip.older b hb g hg
    · obtain ⟨m, hm⟩ := h.skip.on g hg
      rw [List.mem_singleton.1 hb, hrange]
      exact Found.contains_or_lt ((List.pairwise_cons.1 h.sorted).1 g hg)
        (hcovers.ordered m _ hm.range) (hcovers.nests _ m _ _ hserial hm.range)

/-- A file is passed over or kept, until none is left. -/
theorem keep_charted {fresh : Nat} {found : List Found} {kept components : List Component}
    (hcovers : chart.Covers seen) (h : Charted chart kept found)
    (hkeep : keep found fresh kept d = (d', .ok components)) :
    Lists chart found d d' components ∧ ∀ c ∈ kept, c ∈ components := by
  induction found generalizing fresh kept d with
  | nil =>
    obtain ⟨rfl, hcomponents⟩ := Prod.mk.inj hkeep
    obtain rfl := Except.ok.inj hcomponents
    exact ⟨⟨h.newer, h.charted, fun _ _ h => h, by simp⟩, fun _ h => h⟩
  | cons f found ih =>
    obtain ⟨n, hn⟩ := h.on f List.mem_cons_self
    rw [keep] at hkeep
    split at hkeep
    · obtain ⟨hlists, hkept⟩ := ih h.skip hkeep
      have hgone : ∀ name file, d'.find? name = some file →
          name ≠ f.name ∧ d.find? name = some file := by
        intro name file hfile
        have herased := hlists.fewer name file hfile
        rw [Directory.find?_erase] at herased
        split at herased
        · contradiction
        · exact ⟨‹_›, herased⟩
      refine ⟨⟨hlists.newer, hlists.charted, fun name file hfile => (hgone name file hfile).2,
        List.forall_mem_cons.2 ⟨fun file hfile => ?_, hlists.stays⟩⟩, hkept⟩
      exact absurd rfl (hgone f.name file hfile).1
    · rename_i hout
      simp only [Found.numbered, hn.id] at hkeep
      split at hkeep
      · simp at hkeep
      · rename_i c hcomponent
        obtain ⟨rfl, hrange, -⟩ := Archive.component_eq_ok hcomponent
        obtain ⟨hlists, hkept⟩ := ih (h.keep hcovers hn.range hrange hout) hkeep
        refine ⟨⟨hlists.newer, hlists.charted, hlists.fewer,
          List.forall_mem_cons.2 ⟨fun file _ => ?_, hlists.stays⟩⟩, fun b hb => ?_⟩
        · exact ⟨c, hkept c (List.mem_append_right _ List.mem_cons_self), hn.id⟩
        · exact hkept b (List.mem_append_left _ hb)

/-- A recovery of charted files lists components by range, the newest first, and what it leaves of
component files is on the part of the chart that has these components. -/
theorem recover_charted (hcovers : chart.Covers seen)
    (hword : ∀ n range, chart n = some range → n < Numeral.word) (hsorted : d.Sorted)
    (hseen : ∀ name file, FileName.isComponent name = true → d.find? name = some file →
      seen name file) {components : List Component}
    (hrecover : recover folder format d.names d = (d', .ok components)) :
    components.Pairwise Component.Newer ∧ (∀ c ∈ components, chart c.serial = some c.range) ∧
      (chart.only (components.map Component.serial)).Covers fun name file =>
        d'.find? name = some file := by
  rw [recover] at hrecover
  split at hrecover
  · simp at hrecover
  · rename_i between found hcollect
    split at hrecover
    · simp at hrecover
    · rename_i fresh hfresh
      obtain ⟨hsame, hnames, hfound⟩ := collect_charted hcovers hword hseen hcollect
      have hcharted : Charted chart [] (found.mergeSort Found.before) :=
        ⟨fun f hf => hfound f (List.mem_mergeSort.1 hf),
          List.pairwise_mergeSort Found.before_trans Found.before_total found, .nil, by simp,
          by simp⟩
      have hlists := (keep_charted hcovers hcharted hrecover).1
      refine ⟨hlists.newer, hlists.charted, fun n range hn => ?_, fun m n range other hm hn => ?_,
        fun name file hcomponent hfile => ?_⟩
      · exact hcovers.ordered n range (Chart.only_eq_some_iff.1 hn).2
      · exact hcovers.nests m n range other (Chart.only_eq_some_iff.1 hm).2
          (Chart.only_eq_some_iff.1 hn).2
      · have hbetween := hlists.fewer name file hfile
        rw [hsame name hcomponent] at hbetween
        obtain ⟨n, range, hn, rfl, htells⟩ :=
          hcovers.named name file hcomponent (hseen name file hcomponent hbetween)
        refine ⟨n, range, Chart.only_eq_some_iff.2 ⟨?_, hn⟩, rfl, htells⟩
        have hmem := (Directory.mem_names_iff hsorted).2 ⟨file, hbetween⟩
        obtain ⟨f, hf, heq⟩ := hnames _ hmem hcomponent
        obtain ⟨m, hm⟩ := hfound f hf
        rw [← heq] at hfile
        obtain ⟨c, hc, hid⟩ := hlists.stays f (List.mem_mergeSort.2 hf) file hfile
        have hwrapped := (FileName.ofComponent_eq_iff.1 (hm.name.symm.trans heq)).1
        rw [Numeral.wrapped_of_lt (hword m _ hm.range), Numeral.wrapped_of_lt (hword n _ hn)]
          at hwrapped
        rw [← hwrapped, Option.some.inj (hm.id.symm.trans hid)]
        exact List.mem_map_of_mem hc

end Recovery

end Strata
