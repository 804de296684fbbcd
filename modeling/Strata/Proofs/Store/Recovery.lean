import Mathlib.Data.List.Pairwise
import Strata.Proofs.Directory
import Strata.Proofs.Store.Annals
import Strata.Store.Recovery

/-!
# What a recovery keeps

What a directory holds amounts to some records when each of its component files went into one of
them, on some line of merges, and each of them has a file of its range there. A recovery of such a
directory keeps one file for each of these records: the first by name of those with its range. All
other component files are removed, and all files under construction.
-/

namespace Strata

/-- Members that a sort must not tell apart stay in the order they had. -/
theorem filter_mergeSort {α : Type} (le : α → α → Bool)
    (htrans : ∀ a b c, le a b = true → le b c = true → le a c = true)
    (htotal : ∀ a b, (le a b || le b a) = true) {p : α → Bool}
    (hp : ∀ a b, p a = true → p b = true → le a b = true) (l : List α) :
    (l.mergeSort le).filter p = l.filter p := by
  have hpairwise : (l.filter p).Pairwise fun a b => le a b = true := by
    refine List.Pairwise.imp_of_mem (fun ha hb _ => ?_) (List.pairwise_of_forall fun _ _ => trivial)
    exact hp _ _ (List.mem_filter.1 ha).2 (List.mem_filter.1 hb).2
  have hsub := (List.sublist_mergeSort htrans htotal hpairwise List.filter_sublist).filter p
  rw [List.filter_filter] at hsub
  simp only [Bool.and_self] at hsub
  exact (hsub.eq_of_length ((List.mergeSort_perm l le).filter p).length_eq.symm).symm

section Pairs

variable {α β : Type} {R R' : α → β → Prop} {as : List α} {bs bs' : List β}

theorem exists_right (h : List.Forall₂ R as bs) {a : α} (ha : a ∈ as) : ∃ b ∈ bs, R a b := by
  induction h with
  | nil => simp at ha
  | @cons a' b as bs hab _ ih =>
    rcases List.mem_cons.1 ha with rfl | ha
    · exact ⟨b, List.mem_cons_self, hab⟩
    · obtain ⟨b', hb', hab'⟩ := ih ha
      exact ⟨b', List.mem_cons_of_mem _ hb', hab'⟩

theorem exists_left (h : List.Forall₂ R as bs) {b : β} (hb : b ∈ bs) : ∃ a ∈ as, R a b :=
  exists_right h.flip hb

theorem right_eq (h : List.Forall₂ R as bs) (h' : List.Forall₂ R' as bs')
    (heq : ∀ a, ∀ b ∈ bs, ∀ b', R a b → R' a b' → b = b') : bs = bs' := by
  induction h generalizing bs' with
  | nil =>
    cases h'
    rfl
  | @cons a b as bs hab _ ih =>
    cases h' with
    | @cons _ b' _ bs' hab' hrest =>
      rw [List.forall_mem_cons.1 (heq a) |>.1 b' hab hab', ih hrest fun a b hb => ?_]
      exact heq a b (List.mem_cons_of_mem _ hb)

theorem map_eq {γ : Type} {f : α → γ} {g : β → γ} (h : List.Forall₂ R as bs)
    (heq : ∀ a b, R a b → g b = f a) : bs.map g = as.map f := by
  induction h with
  | nil => rfl
  | cons hab _ ih => rw [List.map_cons, List.map_cons, heq _ _ hab, ih]

end Pairs

theorem Directory.find?_erase_draft (d : Directory) {name other : String}
    (hdraft : FileName.isDraft name = true) (hother : FileName.isComponent other = true) :
    (d.erase name).find? other = d.find? other := by
  rw [find?_erase, if_neg]
  rintro rfl
  rw [FileName.isComponent_of_isDraft hdraft] at hother
  contradiction

namespace Found

/-- A component file of a directory, as it is opened. -/
structure In (folder : String) (format : Format) (d : Directory) (f : Found) : Prop where
  component : FileName.isComponent f.name = true
  lies : d.find? f.name = some f.file
  id : f.id = FileName.id? f.name
  opened : Archive.ofBytes (folder ++ "/" ++ f.name) format.codec format.keyFields f.file =
    .ok f.archive

/-- A file that was found is that of a record. -/
structure Of (a : Record) (f : Found) : Prop where
  name : f.name = a.name
  id : f.id = some a.component.id
  range : f.range = a.component.range
  component : f.archive.component f.file a.component.serial f.name = .ok a.component

theorem In.eq_of_name {folder : String} {format : Format} {d : Directory} {f g : Found}
    (hf : f.In folder format d) (hg : g.In folder format d)
    (hname : f.name = g.name) : f = g := by
  have hfile : f.file = g.file := by
    rw [← Option.some.injEq, ← hf.lies, ← hg.lies, hname]
  have harchive : f.archive = g.archive := by
    have hopened := hf.opened
    rw [hname, hfile, hg.opened] at hopened
    exact (Except.ok.inj hopened).symm
  have hid : f.id = g.id := by rw [hf.id, hg.id, hname]
  cases f
  cases g
  simp only [mk.injEq]
  exact ⟨hname, hid, harchive, hfile⟩

/-- A component file is opened as before when a file under construction is gone. -/
theorem in_erase_draft {folder : String} {format : Format} {d : Directory} {f : Found}
    {name : String} (hdraft : FileName.isDraft name = true) :
    f.In folder format (d.erase name) ↔ f.In folder format d := by
  have hfind : FileName.isComponent f.name = true →
      (d.erase name).find? f.name = d.find? f.name :=
    Directory.find?_erase_draft d hdraft
  exact ⟨fun h => ⟨h.component, hfind h.component ▸ h.lies, h.id, h.opened⟩,
    fun h => ⟨h.component, (hfind h.component).trans h.lies, h.id, h.opened⟩⟩

theorem before_iff {f g : Found} : f.before g = true ↔
    g.range.max < f.range.max ∨ f.range.max = g.range.max ∧ f.range.min ≤ g.range.min := by
  simp [before]

theorem before_trans (f g h : Found) (hfg : f.before g = true) (hgh : g.before h = true) :
    f.before h = true := by
  rw [before_iff] at *
  omega

theorem before_total (f g : Found) : (f.before g || g.before f) = true := by
  rw [Bool.or_eq_true, before_iff, before_iff]
  omega

/-- Sorted files come by range, and those of one range in the order they had. -/
theorem sorted_mergeSort {found : List Found} (h : found.Pairwise fun f g => f.name < g.name) :
    (found.mergeSort before).Pairwise fun f g =>
      f.before g = true ∧ (f.range = g.range → f.name < g.name) := by
  have hsorted : (found.mergeSort before).Pairwise fun f g => f.before g = true :=
    List.pairwise_mergeSort before_trans before_total found
  refine hsorted.and ?_
  rw [List.pairwise_iff_forall_sublist]
  intro f g hsub hrange
  have hsame := filter_mergeSort before before_trans before_total
    (p := fun e => decide (e.range = f.range)) (fun a b ha hb => ?_) found
  · have hpair := hsub.filter fun e => decide (e.range = f.range)
    rw [hsame, List.filter_eq_self.2 (by simp [hrange])] at hpair
    exact List.pairwise_iff_forall_sublist.1 h (hpair.trans List.filter_sublist)
  · simp only [decide_eq_true_iff] at ha hb
    rw [before_iff, ha, hb]
    omega

end Found

/-- What a directory holds amounts to some records: each component file in it went into one of them,
and each of them has a file of its range in it, of which nothing is newer. -/
structure Directory.AmountsTo (d : Directory) (annals tops : List Record) : Prop where
  sorted : d.Sorted
  written : ∀ name file, FileName.isComponent name = true → d.find? name = some file →
    ∃ a ∈ annals, a.name = name ∧ a.file = file
  mem : ∀ t ∈ tops, t ∈ annals
  newer : tops.Pairwise Record.Newer
  line : ∀ a ∈ annals, a.LiesIn d →
    ∃ t ∈ tops, Relation.ReflTransGen (Record.Input annals) a t
  twin : ∀ t ∈ tops, ∃ a ∈ annals, a.LiesIn d ∧ a.component.range = t.component.range ∧
    Relation.ReflTransGen (Record.Input annals) a t

/-- A record is the one whose file a recovery of a directory keeps for another. -/
structure Record.Stays (annals : List Record) (d : Directory) (t w : Record) : Prop where
  mem : w ∈ annals
  lies : w.LiesIn d
  range : w.component.range = t.component.range
  line : Relation.ReflTransGen (Record.Input annals) w t
  first : ∀ a ∈ annals, a.LiesIn d → a.component.range = t.component.range → ¬ a.name < w.name

/-- Of records of which each is newer than the next none covers another. -/
theorem Record.eq_of_contains {tops : List Record} (hnewer : tops.Pairwise Record.Newer)
    (hordered : ∀ t ∈ tops, t.component.range.min ≤ t.component.range.max) {t t' : Record}
    (ht : t ∈ tops) (ht' : t' ∈ tops) (h : t'.component.range.contains t.component.range = true) :
    t = t' := by
  have hapart : tops.Pairwise fun a b => a.component.range.contains b.component.range = true ∨
      b.component.range.contains a.component.range = true → a = b := by
    refine hnewer.imp_of_mem fun {a b} ha hb hab hcontains => ?_
    have hbelow : b.component.range.max < a.component.range.min := hab
    have := hordered a ha
    have := hordered b hb
    rw [Range.contains_iff, Range.contains_iff] at hcontains
    omega
  exact hapart.forall_of_forall_of_flip (fun _ _ _ => rfl)
    (hapart.imp fun hab hcontains => (hab hcontains.symm).symm) ht ht' (.inr h)

namespace Recovery

variable {r : Reading} {annals : List Record} {format : Format} {folder : String}

/-- Files under construction are removed, and those of components are opened as they are. -/
theorem collect_spec (folder : String) (format : Format) (names : List String) (d : Directory)
    (hopen : ∀ name ∈ names, FileName.isComponent name = true →
      ∃ f : Found, f.name = name ∧ f.In folder format d) :
    ∃ found, collect folder format names d =
        (d.without (names.filter FileName.isDraft), .ok found) ∧
      found.map Found.name = names.filter FileName.isComponent ∧
      ∀ f ∈ found, f.In folder format d := by
  induction names generalizing d with
  | nil => exact ⟨[], by simp [collect], rfl, by simp⟩
  | cons name names ih =>
    rw [List.forall_mem_cons] at hopen
    obtain ⟨hfirst, hrest⟩ := hopen
    by_cases hdraft : FileName.isDraft name = true
    · have hcomponent := FileName.isComponent_of_isDraft hdraft
      obtain ⟨found, hcollect, hnames, hfound⟩ := ih (d.erase name) fun other hmem hother => by
        obtain ⟨f, hname, hf⟩ := hrest other hmem hother
        exact ⟨f, hname, (Found.in_erase_draft hdraft).2 hf⟩
      refine ⟨found, ?_, ?_, fun f hf => (Found.in_erase_draft hdraft).1 (hfound f hf)⟩
      · rw [collect, if_pos hdraft, hcollect, Directory.without_erase, List.filter_cons,
          if_pos hdraft]
      · rw [hnames, List.filter_cons, hcomponent]
        rfl
    · have hstay : (name :: names).filter FileName.isDraft = names.filter FileName.isDraft := by
        rw [List.filter_cons, if_neg hdraft]
      obtain ⟨found, hcollect, hnames, hfound⟩ := ih d hrest
      by_cases hcomponent : FileName.isComponent name = true
      · obtain ⟨f, rfl, hf⟩ := hfirst hcomponent
        have hread : d.read f.name = .ok f.file := Directory.read_eq_ok_iff.2 hf.lies
        refine ⟨f :: found, ?_, ?_, List.forall_mem_cons.2 ⟨hf, hfound⟩⟩
        · simp only [collect, if_neg hdraft, hcomponent, hread, hf.opened, hcollect, hstay, ← hf.id]
          rfl
        · rw [List.map_cons, hnames, List.filter_cons, if_pos hcomponent]
      · refine ⟨found, ?_, ?_, hfound⟩
        · rw [collect, if_neg hdraft, if_pos (by simpa using hcomponent), hcollect, hstay]
        · rw [hnames, List.filter_cons, if_neg hcomponent]

/-- Where component files have been found, all that have one of the names can be opened. -/
theorem opens_of_collect {names : List String} {d d' : Directory} {found : List Found}
    (hcollect : collect folder format names d = (d', .ok found)) :
    ∀ name ∈ names, FileName.isComponent name = true →
      ∃ f : Found, f.name = name ∧ f.In folder format d := by
  induction names generalizing d found with
  | nil => simp
  | cons name names ih =>
    rw [collect] at hcollect
    split at hcollect
    · rename_i hdraft
      refine List.forall_mem_cons.2 ⟨fun hcomponent => ?_, fun other hother hcomponent => ?_⟩
      · rw [FileName.isComponent_of_isDraft hdraft] at hcomponent
        contradiction
      · obtain ⟨f, hname, hf⟩ := ih hcollect other hother hcomponent
        exact ⟨f, hname, (Found.in_erase_draft hdraft).1 hf⟩
    · split at hcollect
      · rename_i hother
        refine List.forall_mem_cons.2 ⟨fun hcomponent => ?_, ih hcollect⟩
        simp [hcomponent] at hother
      · split at hcollect
        · simp at hcollect
        · rename_i file hread
          split at hcollect
          · simp at hcollect
          · rename_i archive hopen
            split at hcollect
            · simp at hcollect
            · rename_i hrest
              obtain ⟨rfl, -⟩ := Prod.mk.inj hcollect
              exact List.forall_mem_cons.2 ⟨fun hcomponent =>
                ⟨⟨name, FileName.id? name, archive, file⟩, rfl, hcomponent,
                  Directory.read_eq_ok_iff.1 hread, rfl, hopen⟩, ih hrest⟩

/-- Files of records are found as theirs. -/
theorem collect_eq (folder : String) (hannals : Annals r annals) (hcodec : format.codec = r.codec)
    (hkeyFields : format.keyFields = r.keyFields) {names : List String} {d : Directory}
    (hfiles : ∀ name ∈ names, FileName.isComponent name = true →
      ∃ a ∈ annals, a.name = name ∧ a.LiesIn d) :
    ∃ found, collect folder format names d =
        (d.without (names.filter FileName.isDraft), .ok found) ∧
      found.map Found.name = names.filter FileName.isComponent ∧
      ∀ f ∈ found, ∃ a ∈ annals, f.Of a ∧ a.LiesIn d := by
  have hopen : ∀ a ∈ annals, a.LiesIn d → FileName.isComponent a.name = true →
      ∃ f : Found, f.In folder format d ∧ f.Of a := by
    intro a ha hlies hcomponent
    obtain ⟨archive, blocks, hopen, hcodec', hkeyFields', hrange, hcomponent', -⟩ :=
      (hannals.sound a ha).file.archive
    have hid : FileName.id? a.name = some a.component.id :=
      FileName.id?_ofComponent (Numeral.wrapped_lt _) _
    rw [← hcodec, ← hkeyFields] at hopen
    exact ⟨⟨a.name, FileName.id? a.name, archive, a.file⟩, ⟨hcomponent, hlies, rfl, hopen _⟩,
      ⟨rfl, hid, hrange, hcomponent'⟩⟩
  obtain ⟨found, hcollect, hnames, hin⟩ := collect_spec folder format names d
    fun name hname hcomponent => by
      obtain ⟨a, ha, rfl, hlies⟩ := hfiles name hname hcomponent
      obtain ⟨f, hf, hof⟩ := hopen a ha hlies hcomponent
      exact ⟨f, hof.name, hf⟩
  refine ⟨found, hcollect, hnames, fun f hf => ?_⟩
  have hname : f.name ∈ names.filter FileName.isComponent := hnames ▸ List.mem_map_of_mem hf
  obtain ⟨hlisted, hcomponent⟩ := List.mem_filter.1 hname
  obtain ⟨a, ha, heq, hlies⟩ := hfiles f.name hlisted hcomponent
  obtain ⟨g, hg, hof⟩ := hopen a ha hlies (heq ▸ hcomponent)
  rw [hg.eq_of_name (hin f hf) (hof.name.trans heq)] at hof
  exact ⟨a, ha, hof, hlies⟩

/-- A file lies inside a component that was kept. -/
def Covered (kept : List Component) (f : Found) : Prop :=
  kept.any (·.range.contains f.range) = true

/-- The files that are left go into what was kept, or into records not yet met, and each of these
has a file of its range among them. -/
structure Keeping (annals : List Record) (d : Directory) (rest : List Found)
    (kept : List Component) (tops : List Record) : Prop where
  found : ∀ f ∈ rest, ∃ a ∈ annals, f.Of a ∧ a.LiesIn d
  inside : ∀ f ∈ rest,
    Covered kept f ∨ ∃ t ∈ tops, t.component.range.contains f.range = true
  apart : ∀ f ∈ rest, ∀ t ∈ tops, t.component.range.contains f.range = true → ¬ Covered kept f
  twin : ∀ t ∈ tops, ∃ f ∈ rest, f.range = t.component.range
  sorted : rest.Pairwise fun f g => f.before g = true ∧ (f.range = g.range → f.name < g.name)
  newer : tops.Pairwise Record.Newer

theorem keeping_skip {d : Directory} {f : Found} {rest : List Found} {kept : List Component}
    {tops : List Record} (h : Keeping annals d (f :: rest) kept tops) (hcovered : Covered kept f) :
    Keeping annals d rest kept tops where
  found g hg := h.found g (List.mem_cons_of_mem _ hg)
  inside g hg := h.inside g (List.mem_cons_of_mem _ hg)
  apart g hg := h.apart g (List.mem_cons_of_mem _ hg)
  twin t ht := by
    obtain ⟨g, hg, hrange⟩ := h.twin t ht
    rcases List.mem_cons.1 hg with rfl | hg
    · refine absurd hcovered (h.apart g List.mem_cons_self t ht ?_)
      rw [hrange]
      exact Range.contains_self _
    · exact ⟨g, hg, hrange⟩
  sorted := (List.pairwise_cons.1 h.sorted).2
  newer := h.newer

/-- The first file that lies inside nothing kept has the range of the newest record not yet met. -/
theorem keeping_head (hannals : Annals r annals) {d : Directory} {f : Found} {rest : List Found}
    {kept : List Component} {tops : List Record} (h : Keeping annals d (f :: rest) kept tops)
    (hout : ¬ Covered kept f) :
    ∃ t others, tops = t :: others ∧ f.range = t.component.range ∧
      ∀ c : Component, c.range = f.range → Keeping annals d rest (kept ++ [c]) others := by
  have hordered : ∀ g ∈ f :: rest, g.range.min ≤ g.range.max := by
    intro g hg
    obtain ⟨a, ha, hof, -⟩ := h.found g hg
    rw [hof.range]
    exact (hannals.sound a ha).file.ordered
  obtain ⟨t, ht, hinside⟩ := (h.inside f List.mem_cons_self).resolve_left hout
  cases tops with
  | nil => simp at ht
  | cons newest others =>
    obtain ⟨hnewest, hothers⟩ := List.pairwise_cons.1 h.newer
    obtain ⟨g, hg, hrange⟩ := h.twin newest List.mem_cons_self
    have hbefore : f.before g = true := by
      rcases List.mem_cons.1 hg with rfl | hg
      · exact (Found.before_iff).2 (.inr ⟨rfl, Nat.le_refl _⟩)
      · exact ((List.pairwise_cons.1 h.sorted).1 g hg).1
    have horder := hordered g hg
    rw [Found.before_iff] at hbefore
    rw [Range.contains_iff] at hinside
    obtain rfl : t = newest := by
      rcases List.mem_cons.1 ht with rfl | hlater
      · rfl
      · have hbelow : t.component.range.max < newest.component.range.min := hnewest t hlater
        rw [hrange] at hbefore horder
        omega
    have heq : f.range = t.component.range := by
      rw [hrange] at hbefore
      refine Range.eq_of_contains (Range.contains_iff.2 ?_) (Range.contains_iff.2 hinside)
      omega
    refine ⟨t, others, rfl, heq, fun c hc => ?_⟩
    have hcovered : ∀ e, Covered (kept ++ [c]) e ↔
        Covered kept e ∨ t.component.range.contains e.range = true := by
      intro e
      rw [Covered, Covered, List.any_append, Bool.or_eq_true, ← heq, ← hc]
      simp
    have hapart : ∀ e ∈ rest, ∀ t' ∈ others, t'.component.range.contains e.range = true →
        t.component.range.contains e.range ≠ true := by
      intro e he t' ht' hin hin'
      have hbelow : t'.component.range.max < t.component.range.min := hnewest t' ht'
      have horder' := hordered e (List.mem_cons_of_mem _ he)
      rw [Range.contains_iff] at hin hin'
      omega
    exact {
      found := fun e he => h.found e (List.mem_cons_of_mem _ he)
      inside := fun e he => by
        rw [hcovered e]
        rcases h.inside e (List.mem_cons_of_mem _ he) with hold | ⟨t', ht', hin⟩
        · exact .inl (.inl hold)
        · rcases List.mem_cons.1 ht' with rfl | ht'
          · exact .inl (.inr hin)
          · exact .inr ⟨t', ht', hin⟩
      apart := fun e he t' ht' hin => by
        rw [hcovered e]
        rintro (hold | hin')
        · exact h.apart e (List.mem_cons_of_mem _ he) t' (List.mem_cons_of_mem _ ht') hin hold
        · exact hapart e he t' ht' hin hin'
      twin := fun t' ht' => by
        obtain ⟨e, he, hrange'⟩ := h.twin t' (List.mem_cons_of_mem _ ht')
        rcases List.mem_cons.1 he with rfl | he
        · have hbelow : t'.component.range.max < t.component.range.min := hnewest t' ht'
          have horder' := hordered e List.mem_cons_self
          rw [← hrange', heq] at hbelow
          rw [heq] at horder'
          omega
        · exact ⟨e, he, hrange'⟩
      sorted := (List.pairwise_cons.1 h.sorted).2
      newer := hothers }

/-- A record is the one whose file a recovery keeps for another: of all files of that range it comes
first by name. -/
structure Picks (annals : List Record) (d : Directory) (found : List Found)
    (t w : Record) : Prop where
  mem : w ∈ annals
  lies : w.LiesIn d
  range : w.component.range = t.component.range
  first : ∀ f ∈ found, f.range = t.component.range → ¬ f.name < w.name

/-- For each record one file is kept, and all others are removed. -/
theorem keep_eq (hannals : Annals r annals)
    (hword : ∀ a ∈ annals, a.component.serial < Numeral.word)
    (fresh : Nat) (d : Directory) {d₀ : Directory} {rest : List Found} {kept : List Component}
    {tops : List Record} (h : Keeping annals d₀ rest kept tops) :
    ∃ winners lost,
      keep rest fresh kept d = (d.without lost, .ok (kept ++ winners.map Record.component)) ∧
      (rest.map Found.name).Perm (winners.map Record.name ++ lost) ∧
      List.Forall₂ (Picks annals d₀ rest) tops winners := by
  induction rest generalizing kept tops d with
  | nil =>
    have hnil : tops = [] := by
      refine List.eq_nil_iff_forall_not_mem.2 fun t ht => ?_
      obtain ⟨f, hf, -⟩ := h.twin t ht
      simp at hf
    subst hnil
    exact ⟨[], [], by simp [keep], .nil, .nil⟩
  | cons f rest ih =>
    by_cases hcovered : Covered kept f
    · obtain ⟨winners, lost, hkeep, hperm, hpicks⟩ := ih (d.erase f.name) (keeping_skip h hcovered)
      refine ⟨winners, f.name :: lost, ?_, (hperm.cons f.name).trans List.perm_middle.symm, ?_⟩
      · have hany : kept.any (·.range.contains f.range) = true := hcovered
        rw [keep, if_pos hany, hkeep, Directory.without_erase]
      · refine ((List.forall₂_and_left (p := (· ∈ tops)) ..).2 ⟨fun t ht => ht, hpicks⟩).imp ?_
        rintro t w ⟨ht, hw⟩
        refine ⟨hw.mem, hw.lies, hw.range, List.forall_mem_cons.2 ⟨fun hrange => ?_, hw.first⟩⟩
        refine absurd hcovered (h.apart f List.mem_cons_self t ht ?_)
        rw [hrange]
        exact Range.contains_self _
    · obtain ⟨t, others, rfl, hrange, hnext⟩ := keeping_head hannals h hcovered
      obtain ⟨a, ha, hof, hlies⟩ := h.found f List.mem_cons_self
      have hkeeping := hnext a.component hof.range.symm
      obtain ⟨winners, lost, hkeep, hperm, hpicks⟩ := ih d hkeeping
      have hcomponent := hof.component
      rw [← Component.id_of_lt (hword a ha)] at hcomponent
      refine ⟨a :: winners, lost, ?_, ?_, .cons ⟨ha, hlies, ?_, ?_⟩ ?_⟩
      · have hany : ¬ kept.any (·.range.contains f.range) = true := hcovered
        rw [keep, if_neg hany]
        simp only [Found.numbered, hof.id, hcomponent, hkeep]
        simp
      · rw [List.map_cons, List.map_cons, hof.name]
        exact hperm.cons a.name
      · rw [← hrange, hof.range]
      · rw [← hof.name]
        refine List.forall_mem_cons.2 ⟨fun _ => String.lt_irrefl _, fun g hg heq hlt => ?_⟩
        have hlater := ((List.pairwise_cons.1 h.sorted).1 g hg).2 (hrange.trans heq.symm)
        exact String.lt_irrefl _ (String.lt_trans hlt hlater)
      · refine ((List.forall₂_and_left (p := (· ∈ others)) ..).2 ⟨fun t ht => ht, hpicks⟩).imp ?_
        rintro t' w ⟨ht', hw⟩
        refine ⟨hw.mem, hw.lies, hw.range, List.forall_mem_cons.2 ⟨fun heq => ?_, hw.first⟩⟩
        -- a file of this range would lie inside what was just kept
        obtain ⟨e, he, hrange'⟩ := hkeeping.twin t' ht'
        refine absurd ?_ (hkeeping.apart e he t' ht' (hrange' ▸ Range.contains_self _))
        rw [Covered, List.any_append, hrange', ← heq, hof.range]
        simp

theorem above_le {numbers : List Nat} {n : Nat} (h : ∀ m ∈ numbers, m < n) : above numbers ≤ n := by
  have hfold : ∀ (start : Nat), start ≤ n → (numbers.map (· + 1)).foldl max start ≤ n := by
    induction numbers with
    | nil => exact fun start hstart => hstart
    | cons m rest ih =>
      rw [List.forall_mem_cons] at h
      exact fun start hstart => ih h.2 _ (Nat.max_le.2 ⟨hstart, h.1⟩)
  exact hfold 0 (Nat.zero_le n)

theorem lt_above {numbers : List Nat} {n : Nat} (h : n ∈ numbers) : n < above numbers := by
  have hfold : ∀ (start : Nat), start ≤ (numbers.map (· + 1)).foldl max start ∧
      ∀ m ∈ numbers, m < (numbers.map (· + 1)).foldl max start := by
    clear h
    induction numbers with
    | nil => simp
    | cons m rest ih =>
      intro start
      obtain ⟨hstart, hrest⟩ := ih (max start (m + 1))
      refine ⟨Nat.le_trans (Nat.le_max_left ..) hstart, List.forall_mem_cons.2 ⟨?_, hrest⟩⟩
      exact Nat.lt_of_lt_of_le (Nat.lt_succ_self m) (Nat.le_trans (Nat.le_max_right ..) hstart)
  exact (hfold 0).2 n h

/-- Of the names in a directory, those of files that a recovery keeps: neither files under
construction nor components that are not kept. -/
def keeps (winners : List Record) (name : String) : Bool :=
  !FileName.isDraft name && (!FileName.isComponent name || winners.any (·.name = name))

/-- Each record that lies in a directory was found there. -/
theorem exists_found_of_lies (hannals : Annals r annals)
    (hserial : ∀ a ∈ annals, a.component.serial < Numeral.word) {d : Directory} (hsorted : d.Sorted)
    {found : List Found} (hnames : found.map Found.name = d.names.filter FileName.isComponent)
    (hfound : ∀ f ∈ found, ∃ a ∈ annals, f.Of a ∧ a.LiesIn d) {a : Record} (ha : a ∈ annals)
    (hlies : a.LiesIn d) : ∃ f ∈ found, f.Of a := by
  have hname : a.name ∈ found.map Found.name := by
    rw [hnames, List.mem_filter]
    exact ⟨(Directory.mem_names_iff hsorted).2 ⟨_, hlies⟩, FileName.isComponent_ofComponent ..⟩
  obtain ⟨f, hf, heq⟩ := List.mem_map.1 hname
  obtain ⟨b, hb, hof, -⟩ := hfound f hf
  have hsame : b = a := hannals.eq_of_serial_eq hb ha
    (Record.serial_eq_of_name_eq (hserial b hb) (hserial a ha) (hof.name ▸ heq))
  exact ⟨f, hf, hsame ▸ hof⟩

/-- There is a number that comes after those of all records. -/
theorem freshId_lt_word (hword : ∀ a ∈ annals, a.component.serial + 1 < Numeral.word)
    {found : List Found} (hfound : ∀ f ∈ found, ∃ a ∈ annals, f.Of a) :
    freshId found < Numeral.word := by
  have hle : above (found.filterMap Found.id) ≤ Numeral.word - 1 := by
    refine above_le fun id hid => ?_
    obtain ⟨f, hf, hsome⟩ := List.mem_filterMap.1 hid
    obtain ⟨a, ha, hof⟩ := hfound f hf
    have hnext := hword a ha
    rw [hof.id, Component.id_of_lt (Nat.lt_of_succ_lt hnext)] at hsome
    have hserial := Option.some.inj hsome
    omega
  have hpositive : 0 < Numeral.word := by decide
  exact Nat.lt_of_le_of_lt hle (Nat.sub_lt hpositive Nat.one_pos)

/-- At first all files are left, and every record has yet to be met. -/
theorem keeping_start (hannals : Annals r annals) {d : Directory} {tops : List Record}
    (h : d.AmountsTo annals tops) {found : List Found}
    (hnames : found.map Found.name = d.names.filter FileName.isComponent)
    (hfound : ∀ f ∈ found, ∃ a ∈ annals, f.Of a ∧ a.LiesIn d)
    (hlies : ∀ a ∈ annals, a.LiesIn d → ∃ f ∈ found, f.Of a) :
    Keeping annals d (found.mergeSort Found.before) [] tops where
  found f hf := hfound f (List.mem_mergeSort.1 hf)
  inside f hf := by
    obtain ⟨a, ha, hof, hlies'⟩ := hfound f (List.mem_mergeSort.1 hf)
    obtain ⟨t, ht, hline⟩ := h.line a ha hlies'
    exact .inr ⟨t, ht, hof.range ▸ (hannals.line_spec hline).1⟩
  apart _ _ _ _ _ := by simp [Covered]
  twin t ht := by
    obtain ⟨a, ha, hlies', hrange, -⟩ := h.twin t ht
    obtain ⟨f, hf, hof⟩ := hlies a ha hlies'
    exact ⟨f, List.mem_mergeSort.2 hf, hof.range.trans hrange⟩
  sorted := by
    refine Found.sorted_mergeSort ?_
    rw [← List.pairwise_map (f := Found.name), hnames]
    exact (List.pairwise_map.2 h.sorted).filter _
  newer := h.newer

/-- Files under construction and those of components given up are removed, and all others kept. -/
theorem without_eq_only {d : Directory} (hsorted : d.Sorted) {winners : List Record}
    {lost : List String}
    (hsplit : (winners.map Record.name ++ lost).Perm (d.names.filter FileName.isComponent)) :
    d.without (d.names.filter FileName.isDraft ++ lost) = d.only (keeps winners) := by
  have hnodup := hsplit.nodup_iff.2 ((Directory.nodup_names hsorted).filter _)
  have hlost : ∀ name ∈ d.names, name ∈ lost ↔ FileName.isComponent name = true ∧
      name ∉ winners.map Record.name := by
    intro name hname
    have hmem := hsplit.mem_iff (a := name)
    rw [List.mem_append, List.mem_filter] at hmem
    constructor
    · intro hin
      refine ⟨(hmem.1 (.inr hin)).2, fun hwinner => ?_⟩
      exact (List.nodup_append.1 hnodup).2.2 name hwinner name hin rfl
    · rintro ⟨hcomponent, hout⟩
      exact (hmem.2 ⟨hname, hcomponent⟩).resolve_left hout
  refine congrArg Directory.mk (List.filter_congr fun f hf => ?_)
  have hname : f.1 ∈ d.names := List.mem_map_of_mem hf
  have hwinner : winners.any (·.name = f.1) = true ↔ f.1 ∈ winners.map Record.name := by simp
  rw [Bool.eq_iff_iff, decide_eq_true_iff, List.mem_append, List.mem_filter, hlost f.1 hname,
    keeps, Bool.and_eq_true, Bool.or_eq_true, hwinner]
  cases FileName.isDraft f.1 <;> cases FileName.isComponent f.1 <;> simp [hname]

/-- A recovery keeps a file for each of the records that what is there amounts to. -/
theorem recover_eq (hannals : Annals r annals) (hcodec : format.codec = r.codec)
    (hkeyFields : format.keyFields = r.keyFields)
    (hword : ∀ a ∈ annals, a.component.serial + 1 < Numeral.word) {d : Directory}
    {tops : List Record} (h : d.AmountsTo annals tops) :
    ∃ winners, recover folder format d.names d =
        (d.only (keeps winners), .ok (winners.map Record.component)) ∧
      List.Forall₂ (Record.Stays annals d) tops winners := by
  have hserial : ∀ a ∈ annals, a.component.serial < Numeral.word := fun a ha =>
    Nat.lt_of_succ_lt (hword a ha)
  obtain ⟨found, hcollect, hnames, hfound⟩ := collect_eq folder hannals hcodec hkeyFields
    fun name hname hcomponent => by
      obtain ⟨file, hfile⟩ := (Directory.mem_names_iff h.sorted).1 hname
      obtain ⟨a, ha, rfl, rfl⟩ := h.written name file hcomponent hfile
      exact ⟨a, ha, rfl, hfile⟩
  have hlies : ∀ a ∈ annals, a.LiesIn d → ∃ f ∈ found, f.Of a := fun a ha =>
    exists_found_of_lies hannals hserial h.sorted hnames hfound ha
  have hfresh : freshId found < Numeral.word := freshId_lt_word hword fun f hf => by
    obtain ⟨a, ha, hof, -⟩ := hfound f hf
    exact ⟨a, ha, hof⟩
  obtain ⟨winners, lost, hkeep, hperm, hpicks⟩ :=
    keep_eq hannals hserial (freshId found) (d.without (d.names.filter FileName.isDraft))
      (keeping_start hannals h hnames hfound hlies)
  have hcomponents : ((found.mergeSort Found.before).map Found.name).Perm
      (d.names.filter FileName.isComponent) := by
    rw [← hnames]
    exact (List.mergeSort_perm found Found.before).map Found.name
  have hfiles := without_eq_only h.sorted (hperm.symm.trans hcomponents)
  refine ⟨winners, ?_, ?_⟩
  · have hok : Outcome.ofWord (freshId found) = .ok (freshId found) :=
      Outcome.ofWord_eq_ok_iff.2 ⟨hfresh, rfl⟩
    simp only [recover, hcollect, hok, hkeep, Directory.without_without, hfiles, List.nil_append]
  · have hordered : ∀ t ∈ tops, t.component.range.min ≤ t.component.range.max := fun t ht =>
      (hannals.sound t (h.mem t ht)).file.ordered
    refine ((List.forall₂_and_left (p := (· ∈ tops)) ..).2 ⟨fun t ht => ht, hpicks⟩).imp ?_
    rintro t w ⟨ht, hw⟩
    refine ⟨hw.mem, hw.lies, hw.range, ?_, fun a ha hlies' hrange => ?_⟩
    · obtain ⟨t', ht', hline⟩ := h.line w hw.mem hw.lies
      have hcontains := (hannals.line_spec hline).1
      rw [hw.range] at hcontains
      rwa [Record.eq_of_contains h.newer hordered ht ht' hcontains]
    · obtain ⟨f, hf, hof⟩ := hlies a ha hlies'
      rw [← hof.name]
      exact hw.first f (List.mem_mergeSort.2 hf) (hof.range.trans hrange)

theorem keeps_name {winners : List Record} {w : Record} (hw : w ∈ winners) :
    keeps winners w.name = true := by
  have hany : winners.any (·.name = w.name) = true := List.any_eq_true.2 ⟨w, hw, by simp⟩
  rw [keeps, hany, Record.name, FileName.isDraft_ofComponent, Bool.or_true]
  rfl

theorem liesIn_only {winners : List Record} {w : Record} (hw : w ∈ winners) {d : Directory} :
    w.LiesIn (d.only (keeps winners)) ↔ w.LiesIn d := by
  rw [Record.LiesIn, Record.LiesIn, Directory.find?_only, if_pos (keeps_name hw)]

/-- Of all files of one range there is one that a recovery keeps, even where some others are
gone. -/
theorem stays_unique (hannals : Annals r annals)
    (hword : ∀ a ∈ annals, a.component.serial < Numeral.word) {d d' : Directory}
    (hsub : ∀ a : Record, a.LiesIn d' → a.LiesIn d) {t w w' : Record}
    (h : Record.Stays annals d t w) (h' : Record.Stays annals d' t w') (hlies : w.LiesIn d') :
    w = w' := by
  have hle : w.name ≤ w'.name := String.not_lt.1 (h.first w' h'.mem (hsub w' h'.lies) h'.range)
  have hge : w'.name ≤ w.name := String.not_lt.1 (h'.first w h.mem hlies h.range)
  exact hannals.eq_of_serial_eq h.mem h'.mem
    (Record.serial_eq_of_name_eq (hword w h.mem) (hword w' h'.mem) (String.le_antisymm hle hge))

/-- A recovery of what another one has left, or was about to leave, comes to the same. -/
theorem recover_again (hannals : Annals r annals) (hcodec : format.codec = r.codec)
    (hkeyFields : format.keyFields = r.keyFields)
    (hword : ∀ a ∈ annals, a.component.serial + 1 < Numeral.word) {d between : Directory}
    {tops winners : List Record} (h : d.AmountsTo annals tops)
    (hstays : List.Forall₂ (Record.Stays annals d) tops winners)
    (hlower : List.Sublist (d.only (keeps winners)).files between.files)
    (hupper : List.Sublist between.files d.files) :
    recover folder format between.names between =
      (d.only (keeps winners), .ok (winners.map Record.component)) := by
  have hsorted : between.Sorted := Directory.sorted_sublist h.sorted hupper
  have hsub : ∀ a : Record, a.LiesIn between → a.LiesIn d := fun a hlies =>
    Directory.find?_of_sublist h.sorted hupper hlies
  have hwinner : ∀ w ∈ winners, w.LiesIn d → w.LiesIn between := fun w hw hlies =>
    Directory.find?_of_sublist hsorted hlower ((liesIn_only hw).2 hlies)
  have hserial : ∀ a ∈ annals, a.component.serial < Numeral.word := fun a ha =>
    Nat.lt_of_succ_lt (hword a ha)
  have hbetween : between.AmountsTo annals tops := {
    sorted := hsorted
    written := fun name file hname hfile =>
      h.written name file hname (Directory.find?_of_sublist h.sorted hupper hfile)
    mem := h.mem
    newer := h.newer
    line := fun a ha hlies => h.line a ha (hsub a hlies)
    twin := fun t ht => by
      obtain ⟨w, hw, hstay⟩ := exists_right hstays ht
      exact ⟨w, hstay.mem, hwinner w hw hstay.lies, hstay.range, hstay.line⟩ }
  obtain ⟨winners', hrecover, hstays'⟩ := recover_eq hannals hcodec hkeyFields hword hbetween
  obtain rfl : winners = winners' := right_eq hstays hstays' fun t w hw w' hstay hstay' =>
    stays_unique hannals hserial hsub hstay hstay' (hwinner w hw hstay.lies)
  have hfiles : between.only (keeps winners) = d.only (keeps winners) := by
    have hleft := hlower.filter fun f => keeps winners f.1
    have hright := hupper.filter fun f => keeps winners f.1
    rw [Directory.only, List.filter_filter] at hleft
    simp only [Bool.and_self] at hleft
    exact congrArg Directory.mk (hright.antisymm hleft)
  rw [hrecover, hfiles]

end Recovery

end Strata
