import Mathlib.Data.List.Nodup
import Mathlib.Data.List.Perm.Subperm
import Strata.Proofs.Store.Recovery

/-!
# The outermost files of a directory

A recovery goes through the component files by range, the newest first and of those with one newest
flush the widest. It keeps a file unless its range lies in that of one kept before. In this order no
file can lie in one that comes later, unless their ranges are the same, so comparing with those kept
is enough: whatever the ranges are, one file is kept for each that lies properly in no other, and
every other file lies in one that is kept.

Files whose name tells no number are given the numbers above all those told. There may be too few of
these, and then the recovery breaks off.
-/

namespace Strata

/-- A range begins and ends later than another. -/
def Range.Ahead (a b : Range) : Prop := b.max < a.max ∧ b.min < a.min

/-- Where ranges descend at both ends, none lies in another. -/
theorem Range.eq_of_contains_of_ahead {α : Type} {range : α → Range} {l : List α}
    (hdescending : l.Pairwise fun v w => (range v).Ahead (range w)) {v w : α} (hv : v ∈ l)
    (hw : w ∈ l) (h : (range v).contains (range w) = true) : v = w := by
  have hapart : l.Pairwise fun v w =>
      (range v).contains (range w) = true ∨ (range w).contains (range v) = true → v = w := by
    refine hdescending.imp fun {a b} hab hcontains => ?_
    rw [contains_iff, contains_iff] at hcontains
    rw [Ahead] at hab
    omega
  exact hapart.forall_of_forall_of_flip (fun _ _ _ => rfl)
    (hapart.imp fun hab hcontains => (hab hcontains.symm).symm) hv hw (.inl h)

namespace Found

/-- The bloom filter of a file can be read. -/
def Legible (f : Found) : Prop := ∃ filter, f.archive.filter f.file = .ok filter

/-- Of some files those whose range lies in none of those kept, each of them being kept in turn. -/
def outer : (kept : List Range) → List Found → List Found
  | _, [] => []
  | kept, f :: rest =>
    if kept.any (·.contains f.range) then outer kept rest
    else f :: outer (kept ++ [f.range]) rest

/-- The other files. -/
def inner : (kept : List Range) → List Found → List Found
  | _, [] => []
  | kept, f :: rest =>
    if kept.any (·.contains f.range) then f :: inner kept rest
    else inner (kept ++ [f.range]) rest

theorem outer_append_inner (kept : List Range) (found : List Found) :
    (outer kept found ++ inner kept found).Perm found := by
  induction found generalizing kept with
  | nil => exact .nil
  | cons f rest ih =>
    rw [outer, inner]
    split
    · exact List.perm_middle.trans ((ih kept).cons f)
    · exact (ih _).cons f

theorem outer_sublist (kept : List Range) (found : List Found) :
    (outer kept found).Sublist found := by
  induction found generalizing kept with
  | nil => exact .slnil
  | cons f rest ih =>
    rw [outer]
    split
    · exact (ih kept).cons f
    · exact (ih _).cons_cons f

/-- Every file lies in one that is kept. -/
theorem exists_contains_outer (kept : List Range) {found : List Found} (hf : f ∈ found) :
    (∃ r ∈ kept, r.contains f.range = true) ∨
      ∃ w ∈ outer kept found, w.range.contains f.range = true := by
  induction found generalizing kept with
  | nil => contradiction
  | cons g rest ih =>
    rw [outer]
    split
    · rename_i hcovered
      rcases List.mem_cons.1 hf with rfl | hf
      · exact .inl (List.any_eq_true.1 hcovered)
      · exact ih kept hf
    · rcases List.mem_cons.1 hf with rfl | hf
      · exact .inr ⟨f, List.mem_cons_self, Range.contains_self _⟩
      · rcases ih (kept ++ [g.range]) hf with ⟨r, hr, hcontains⟩ | ⟨w, hw, hcontains⟩
        · rcases List.mem_append.1 hr with hr | hr
          · exact .inl ⟨r, hr, hcontains⟩
          · obtain rfl := List.mem_singleton.1 hr
            exact .inr ⟨g, List.mem_cons_self, hcontains⟩
        · exact .inr ⟨w, List.mem_cons_of_mem _ hw, hcontains⟩

/-- No file that is kept lies in one kept before. -/
theorem apart_outer (kept : List Range) (found : List Found) :
    (∀ w ∈ outer kept found, ∀ r ∈ kept, r.contains w.range = false) ∧
      (outer kept found).Pairwise fun v w => v.range.contains w.range = false := by
  induction found generalizing kept with
  | nil => exact ⟨by simp [outer], .nil⟩
  | cons f rest ih =>
    rw [outer]
    split
    · exact ih kept
    · rename_i hout
      obtain ⟨hkept, hpairwise⟩ := ih (kept ++ [f.range])
      refine ⟨List.forall_mem_cons.2 ⟨fun r hr => ?_, fun w hw r hr => ?_⟩,
        List.pairwise_cons.2 ⟨fun w hw => ?_, hpairwise⟩⟩
      · exact Bool.eq_false_iff.2 fun hcontains => hout (List.any_eq_true.2 ⟨r, hr, hcontains⟩)
      · exact hkept w hw r (List.mem_append_left _ hr)
      · exact hkept w hw f.range (List.mem_append_right _ (List.mem_singleton_self _))

/-- Of files by range, those that are kept descend at both ends. -/
theorem descending_outer (kept : List Range) {found : List Found}
    (hsorted : found.Pairwise fun f g => f.before g = true) :
    (outer kept found).Pairwise fun v w => v.range.Ahead w.range := by
  have hpairwise := (hsorted.sublist (outer_sublist kept found)).and (apart_outer kept found).2
  refine hpairwise.imp fun {v w} hboth => ?_
  obtain ⟨hbefore, hout⟩ := hboth
  rw [before_iff] at hbefore
  rw [Bool.eq_false_iff, Ne, Range.contains_iff] at hout
  rw [Range.Ahead]
  omega

/-- Of files that descend at both ends none lies in another. -/
theorem eq_of_contains {found : List Found}
    (hdescending : found.Pairwise fun v w => v.range.Ahead w.range) {v w : Found} (hv : v ∈ found)
    (hw : w ∈ found) (h : v.range.contains w.range = true) : v = w :=
  Range.eq_of_contains_of_ahead hdescending hv hw h

/-- The numbers that files have or are given. -/
def numbers : (fresh : Nat) → List Found → List Nat
  | _, [] => []
  | fresh, f :: rest =>
    match f.id with
    | some id => id :: numbers fresh rest
    | none => fresh :: numbers (fresh + 1) rest

/-- How many files have no number. -/
def unnumbered (found : List Found) : Nat := found.countP fun f => f.id.isNone

variable {fresh : Nat} {found : List Found}

/-- A file with a number keeps it, and the others get numbers from `fresh` on. -/
theorem forall₂_numbers (fresh : Nat) (found : List Found) :
    List.Forall₂ (fun f n => (∀ id, f.id = some id → n = id) ∧
      (f.id = none → fresh ≤ n ∧ n < fresh + unnumbered found)) found (numbers fresh found) := by
  induction found generalizing fresh with
  | nil => exact .nil
  | cons f rest ih =>
    rw [numbers]
    split
    · rename_i id hid
      have hcount : unnumbered (f :: rest) = unnumbered rest :=
        List.countP_cons_of_neg (by rw [hid]; simp)
      refine .cons ⟨fun id' hid' => Option.some.inj (hid.symm.trans hid'), fun hnone => ?_⟩ ?_
      · rw [hid] at hnone
        contradiction
      · rw [hcount]
        exact ih fresh
    · rename_i hid
      have hcount : unnumbered (f :: rest) = unnumbered rest + 1 :=
        List.countP_cons_of_pos (by rw [hid]; rfl)
      refine .cons ⟨fun id hid' => ?_, fun _ => ⟨Nat.le_refl _, by omega⟩⟩ ?_
      · rw [hid] at hid'
        contradiction
      · refine (ih (fresh + 1)).imp fun g n hg => ⟨hg.1, fun hnone => ?_⟩
        have := hg.2 hnone
        omega

theorem mem_numbers {n : Nat} (h : n ∈ numbers fresh found) :
    n ∈ found.filterMap Found.id ∨ fresh ≤ n := by
  obtain ⟨f, hf, hnumbered, hfresh⟩ := exists_left (forall₂_numbers fresh found) h
  cases hid : f.id with
  | some id =>
    rw [hnumbered id hid]
    exact .inl (List.mem_filterMap.2 ⟨f, hf, hid⟩)
  | none => exact .inr (hfresh hid).1

/-- Where the numbers in names are different and below `fresh`, all numbers are different. -/
theorem nodup_numbers (hids : (found.filterMap Found.id).Nodup)
    (hbelow : ∀ id ∈ found.filterMap Found.id, id < fresh) : (numbers fresh found).Nodup := by
  induction found generalizing fresh with
  | nil => exact .nil
  | cons f rest ih =>
    rw [numbers]
    split
    · rename_i id hid
      rw [List.filterMap_cons_some hid] at hids hbelow
      rw [List.forall_mem_cons] at hbelow
      obtain ⟨hnot, hrest⟩ := List.nodup_cons.1 hids
      refine List.nodup_cons.2 ⟨fun hmem => ?_, ih hrest hbelow.2⟩
      rcases mem_numbers hmem with hparsed | hle
      · exact hnot hparsed
      · omega
    · rename_i hid
      rw [List.filterMap_cons_none hid] at hids hbelow
      refine List.nodup_cons.2 ⟨fun hmem => ?_, ih hids fun id hmem => ?_⟩
      · rcases mem_numbers hmem with hparsed | hle
        · exact Nat.lt_irrefl _ (hbelow _ hparsed)
        · omega
      · exact Nat.lt_succ_of_lt (hbelow id hmem)

end Found

namespace Recovery

variable {folder : String} {format : Format}

theorem component_of_legible {f : Found} (h : f.Legible) (id : Nat) :
    ∃ c, f.archive.component f.file id f.name = .ok c ∧ c.range = f.range ∧
      c.file = .ok f.name ∧ c.serial = id := by
  obtain ⟨filter, hfilter⟩ := h
  simp only [Archive.component, hfilter]
  exact ⟨_, rfl, rfl, rfl, rfl⟩

/-- The next file gets its number, unless it needs a fresh one above which no word is left. -/
theorem numbered_cases (f : Found) {fresh : Nat} (hfresh : fresh < Numeral.word) :
    (f.numbered fresh = .error .breach ∧
        ∀ rest, Numeral.word ≤ fresh + Found.unnumbered (f :: rest)) ∨
      ∃ id next, f.numbered fresh = .ok (id, next) ∧ next < Numeral.word ∧ ∀ rest,
        fresh + Found.unnumbered (f :: rest) = next + Found.unnumbered rest ∧
        Found.numbers fresh (f :: rest) = id :: Found.numbers next rest := by
  cases hid : f.id with
  | some id =>
    refine .inr ⟨id, fresh, by rw [Found.numbered, hid], hfresh, fun rest => ⟨?_, ?_⟩⟩
    · rw [Found.unnumbered, List.countP_cons_of_neg (by rw [hid]; simp)]
      rfl
    · rw [Found.numbers, hid]
  | none =>
    have hcount : ∀ rest, Found.unnumbered (f :: rest) = Found.unnumbered rest + 1 := fun rest =>
      List.countP_cons_of_pos (by rw [hid]; rfl)
    by_cases hroom : fresh + 1 < Numeral.word
    · refine .inr ⟨fresh, fresh + 1, ?_, hroom, fun rest => ⟨?_, ?_⟩⟩
      · rw [Found.numbered, hid, Outcome.ofWord_eq_ok_iff.2 ⟨hroom, rfl⟩]
        rfl
      · rw [hcount]
        omega
      · rw [Found.numbers, hid]
    · refine .inl ⟨?_, fun rest => ?_⟩
      · rw [Found.numbered, hid, Outcome.ofWord, if_neg hroom]
        rfl
      · rw [hcount]
        omega

/-- Of files with filters that can be read, those are removed that lie in one that is kept, and the
others become components, unless there are too few numbers. -/
theorem keep_spec {fresh : Nat} {kept : List Component} {ranges : List Range} {found : List Found}
    (d : Directory) (hkept : kept.map Component.range = ranges)
    (hlegible : ∀ f ∈ found, f.Legible) (hfresh : fresh < Numeral.word) :
    ∃ lost, (∀ name ∈ lost, name ∈ (Found.inner ranges found).map Found.name) ∧
      ((keep found fresh kept d = (d.without lost, .error .breach) ∧
          Numeral.word ≤ fresh + Found.unnumbered (Found.outer ranges found)) ∨
        ∃ components, keep found fresh kept d = (d.without lost, .ok (kept ++ components)) ∧
          fresh + Found.unnumbered (Found.outer ranges found) < Numeral.word ∧
          lost = (Found.inner ranges found).map Found.name ∧
          List.Forall₂ (fun w c => c.range = w.range ∧ c.file = .ok w.name)
            (Found.outer ranges found) components ∧
          components.map Component.serial = Found.numbers fresh (Found.outer ranges found)) := by
  induction found generalizing fresh kept ranges d with
  | nil =>
    refine ⟨[], by simp, .inr ⟨[], ?_, hfresh, rfl, .nil, rfl⟩⟩
    rw [keep, Directory.without_nil, List.append_nil]
  | cons f rest ih =>
    rw [List.forall_mem_cons] at hlegible
    have hany : kept.any (·.range.contains f.range) = ranges.any (·.contains f.range) := by
      rw [← hkept, List.any_map]
      rfl
    rw [Found.outer, Found.inner, keep, hany]
    by_cases hcovered : ranges.any (·.contains f.range) = true
    · obtain ⟨lost, hlost, hkeep⟩ := ih (d.erase f.name) hkept hlegible.2 hfresh
      simp only [if_pos hcovered, List.map_cons]
      refine ⟨f.name :: lost, ?_, ?_⟩
      · exact List.forall_mem_cons.2 ⟨List.mem_cons_self,
          fun name hname => List.mem_cons_of_mem _ (hlost name hname)⟩
      · rw [← Directory.without_erase]
        refine hkeep.imp id fun hok => ?_
        obtain ⟨components, hkeep, hroom, rfl, hrest⟩ := hok
        exact ⟨components, hkeep, hroom, rfl, hrest⟩
    · simp only [if_neg hcovered]
      rcases numbered_cases f hfresh with
        ⟨hnumbered, hover⟩ | ⟨number, next, hnumbered, hnext, hrest⟩
      · refine ⟨[], by simp, .inl ⟨?_, hover _⟩⟩
        rw [hnumbered, Directory.without_nil]
      · obtain ⟨c, hcomponent, hrange, hfile, hserial⟩ := component_of_legible hlegible.1 number
        have hkept' : (kept ++ [c]).map Component.range = ranges ++ [f.range] := by
          rw [List.map_append, List.map_singleton, hkept, hrange]
        obtain ⟨lost, hlost, hkeep⟩ := ih d hkept' hlegible.2 hnext
        obtain ⟨hcount, hnumbers⟩ := hrest (Found.outer (ranges ++ [f.range]) rest)
        rw [hnumbered, hcount, hnumbers]
        simp only [hcomponent]
        refine ⟨lost, hlost, hkeep.imp id fun hok => ?_⟩
        obtain ⟨components, hkeep, hroom, hall, hpairs, hserials⟩ := hok
        refine ⟨c :: components, ?_, hroom, hall, .cons ⟨hrange, hfile⟩ hpairs, ?_⟩
        · rw [hkeep, List.append_assoc]
          rfl
        · rw [List.map_cons, hserial, hserials]

/-- A component is that of a file that was found. -/
structure Yields (w : Found) (c : Component) : Prop where
  range : c.range = w.range
  file : c.file = .ok w.name
  size : c.size = w.archive.size
  number : ∀ id, w.id = some id → c.serial = id

/-- Where files have been kept to the end, those that lie in one that is kept have been removed, and
the others have become components. -/
theorem keep_eq_ok {fresh : Nat} {kept components : List Component} {ranges : List Range}
    {found : List Found} {d d' : Directory} (hkept : kept.map Component.range = ranges)
    (hkeep : keep found fresh kept d = (d', .ok components)) :
    d' = d.without ((Found.inner ranges found).map Found.name) ∧
      ∃ new, components = kept ++ new ∧ List.Forall₂ Yields (Found.outer ranges found) new := by
  induction found generalizing fresh kept ranges d with
  | nil =>
    obtain ⟨rfl, hcomponents⟩ := Prod.mk.inj hkeep
    obtain rfl := Except.ok.inj hcomponents
    exact ⟨(Directory.without_nil d).symm, [], (List.append_nil _).symm, .nil⟩
  | cons f rest ih =>
    have hany : kept.any (·.range.contains f.range) = ranges.any (·.contains f.range) := by
      rw [← hkept, List.any_map]
      rfl
    rw [keep, hany] at hkeep
    rw [Found.outer, Found.inner]
    by_cases hcovered : ranges.any (·.contains f.range) = true
    · rw [if_pos hcovered] at hkeep
      obtain ⟨hfiles, hnew⟩ := ih hkept hkeep
      rw [if_pos hcovered, if_pos hcovered, List.map_cons, ← Directory.without_erase]
      exact ⟨hfiles, hnew⟩
    · rw [if_neg hcovered] at hkeep
      rw [if_neg hcovered, if_neg hcovered]
      split at hkeep
      · simp at hkeep
      · rename_i number next hnumbered
        split at hkeep
        · simp at hkeep
        · rename_i c hcomponent
          obtain ⟨hserial, hrange, hfile, hsize⟩ := Archive.component_eq_ok hcomponent
          have hkept' : (kept ++ [c]).map Component.range = ranges ++ [f.range] := by
            rw [List.map_append, List.map_singleton, hkept, hrange]
            rfl
          obtain ⟨hfiles, new, rfl, hpairs⟩ := ih hkept' hkeep
          refine ⟨hfiles, c :: new, by rw [List.append_assoc]; rfl,
            .cons ⟨hrange, hfile, hsize, fun id hid => ?_⟩ hpairs⟩
          rw [Found.numbered, hid] at hnumbered
          rw [hserial]
          exact (Prod.mk.inj (Except.ok.inj hnumbered)).1.symm

/-- Of the names in a directory, those of files that stay: neither files under construction nor
components but those of some names. -/
def spares (names : List String) (name : String) : Bool :=
  !FileName.isDraft name && (!FileName.isComponent name || decide (name ∈ names))

/-- The numbers that the names of component files tell. -/
def told (d : Directory) : List Nat :=
  (d.names.filter FileName.isComponent).filterMap FileName.id?

theorem above_congr {numbers others : List Nat} (h : ∀ n, n ∈ numbers ↔ n ∈ others) :
    above numbers = above others :=
  Nat.le_antisymm (above_le fun n hn => lt_above ((h n).1 hn))
    (above_le fun n hn => lt_above ((h n).2 hn))

/-- Every component file of a directory can be opened, and its filter read. -/
def Readable (folder : String) (format : Format) (d : Directory) : Prop :=
  ∀ name ∈ d.names, FileName.isComponent name = true →
    ∃ f : Found, f.name = name ∧ f.In folder format d ∧ f.Legible

/-- Some files of a directory are those whose ranges lie properly in no other, one for each such
range, newest first. -/
structure Outermost (folder : String) (format : Format) (d : Directory) (winners : List Found) :
    Prop where
  found : ∀ w ∈ winners, w.In folder format d
  maximal : ∀ w ∈ winners, ∀ f : Found, f.In folder format d →
    f.range.contains w.range = true → f.range = w.range
  covers : ∀ f : Found, f.In folder format d → ∃ w ∈ winners, w.range.contains f.range = true
  descending : winners.Pairwise fun v w => v.range.Ahead w.range

/-- One file is kept for each range that lies properly in no other. -/
theorem Outermost.existsUnique {d : Directory} {winners : List Found}
    (h : Outermost folder format d winners) {f : Found} (hf : f.In folder format d)
    (hmax : ∀ g : Found, g.In folder format d → g.range.contains f.range = true →
      g.range = f.range) :
    ∃! w, w ∈ winners ∧ w.range = f.range := by
  obtain ⟨w, hw, hcontains⟩ := h.covers f hf
  have hrange := hmax w (h.found w hw) hcontains
  refine ⟨w, ⟨hw, hrange⟩, fun v hv => Found.eq_of_contains h.descending hv.1 hw ?_⟩
  rw [hv.2, hrange]
  exact Range.contains_self _

theorem Outermost.length_le {d : Directory} {winners : List Found}
    (h : Outermost folder format d winners) (hsorted : d.Sorted) :
    winners.length ≤ d.names.length := by
  have hnodup : (winners.map Found.name).Nodup := by
    refine List.pairwise_map.2 (h.descending.imp_of_mem fun {v w} hv hw hahead hname => ?_)
    rw [(h.found v hv).eq_of_name (h.found w hw) hname] at hahead
    exact Nat.lt_irrefl _ hahead.1
  have hsub : winners.map Found.name ⊆ d.names := by
    intro name hname
    obtain ⟨w, hw, rfl⟩ := List.mem_map.1 hname
    exact (Directory.mem_names_iff hsorted).2 ⟨_, (h.found w hw).lies⟩
  rw [← List.length_map (f := Found.name)]
  exact (hnodup.subperm hsub).length_le

/-- Files that are kept in the order of their ranges are the outermost ones. -/
theorem outermost_outer {d : Directory} {found : List Found}
    (hmem : ∀ f : Found, f ∈ found ↔ f.In folder format d)
    (hsorted : found.Pairwise fun f g => f.before g = true) :
    Outermost folder format d (Found.outer [] found) := by
  have hsub := Found.outer_sublist [] found
  have hdescending := Found.descending_outer [] hsorted
  have hcovers : ∀ f : Found, f.In folder format d →
      ∃ w ∈ Found.outer [] found, w.range.contains f.range = true := by
    intro f hf
    refine (Found.exists_contains_outer [] ((hmem f).2 hf)).resolve_left ?_
    rintro ⟨r, hr, -⟩
    exact List.not_mem_nil hr
  refine ⟨fun w hw => (hmem w).1 (hsub.subset hw), fun w hw f hf hcontains => ?_, hcovers,
    hdescending⟩
  -- what covers `f` covers `w`, and can only be `w`
  obtain ⟨v, hv, hcontains'⟩ := hcovers f hf
  obtain rfl : v = w := by
    refine Found.eq_of_contains hdescending hv hw (Range.contains_iff.2 ?_)
    rw [Range.contains_iff] at hcontains hcontains'
    omega
  exact Range.eq_of_contains hcontains hcontains'

/-- Where all component files can be opened, just these are found. -/
theorem found_of_opens {names : List String} {d : Directory} (hsorted : d.Sorted)
    (hnames : names.Perm d.names)
    (hopens : ∀ name ∈ names, FileName.isComponent name = true →
      ∃ f : Found, f.name = name ∧ f.In folder format d) :
    ∃ found, collect folder format names d =
        (d.without (names.filter FileName.isDraft), .ok found) ∧
      (∀ f : Found, f ∈ found ↔ f.In folder format d) ∧
      (found.map Found.name).Perm (d.names.filter FileName.isComponent) := by
  obtain ⟨found, hcollect, hfound, hin⟩ := collect_spec folder format names d hopens
  have hperm : (found.map Found.name).Perm (d.names.filter FileName.isComponent) :=
    hfound ▸ hnames.filter _
  refine ⟨found, hcollect, fun f => ⟨hin f, fun hf => ?_⟩, hperm⟩
  have hlisted : f.name ∈ d.names := (Directory.mem_names_iff hsorted).2 ⟨_, hf.lies⟩
  have hname : f.name ∈ found.map Found.name :=
    hperm.mem_iff.2 (List.mem_filter.2 ⟨hlisted, hf.component⟩)
  obtain ⟨g, hg, heq⟩ := List.mem_map.1 hname
  rwa [(hin g hg).eq_of_name hf heq] at hg

/-- Where all component files can be read, just these are found. -/
theorem exists_found {names : List String} {d : Directory} (hsorted : d.Sorted)
    (hnames : names.Perm d.names) (hreadable : Readable folder format d) :
    ∃ found, collect folder format names d =
        (d.without (names.filter FileName.isDraft), .ok found) ∧
      (∀ f : Found, f ∈ found ↔ f.In folder format d) ∧ (∀ f ∈ found, f.Legible) ∧
      (found.map Found.name).Perm (d.names.filter FileName.isComponent) := by
  obtain ⟨found, hcollect, hmem, hperm⟩ := found_of_opens hsorted hnames
    fun name hname hcomponent => by
      obtain ⟨f, hf, hin, -⟩ := hreadable name (hnames.mem_iff.1 hname) hcomponent
      exact ⟨f, hf, hin⟩
  refine ⟨found, hcollect, hmem, fun f hf => ?_, hperm⟩
  have hin := (hmem f).1 hf
  obtain ⟨g, heq, hg, hlegible⟩ :=
    hreadable f.name ((Directory.mem_names_iff hsorted).2 ⟨_, hin.lies⟩) hin.component
  rwa [hg.eq_of_name hin heq] at hlegible

theorem perm_told {d : Directory} {found : List Found}
    (hin : ∀ f ∈ found, f.In folder format d)
    (hperm : (found.map Found.name).Perm (d.names.filter FileName.isComponent)) :
    (found.filterMap Found.id).Perm (told d) := by
  have hids : found.filterMap Found.id = (found.map Found.name).filterMap FileName.id? := by
    rw [List.filterMap_map]
    exact List.filterMap_congr fun f hf => (hin f hf).id
  rw [hids]
  exact hperm.filterMap _

/-- Once the files are found, a recovery removes those under construction and those that lie in one
that is kept, and makes components of the others, unless there are too few numbers. -/
theorem recover_cases {names : List String} {d : Directory} {found : List Found}
    (hcollect : collect folder format names d =
      (d.without (names.filter FileName.isDraft), .ok found))
    (hlegible : ∀ f ∈ found, f.Legible) :
    let winners := Found.outer [] (found.mergeSort Found.before)
    let others := Found.inner [] (found.mergeSort Found.before)
    ∃ lost,
      (∀ name ∈ lost, name ∈ names.filter FileName.isDraft ++ others.map Found.name) ∧
      ((recover folder format names d = (d.without lost, .error .breach) ∧
          Numeral.word ≤ freshId found + Found.unnumbered winners) ∨
        ∃ components, recover folder format names d = (d.without lost, .ok components) ∧
          freshId found + Found.unnumbered winners < Numeral.word ∧
          lost = names.filter FileName.isDraft ++ others.map Found.name ∧
          List.Forall₂ (fun w c => c.range = w.range ∧ c.file = .ok w.name) winners components ∧
          components.map Component.serial = Found.numbers (freshId found) winners) := by
  intro winners others
  by_cases hfresh : freshId found < Numeral.word
  · have hok : Outcome.ofWord (freshId found) = .ok (freshId found) :=
      Outcome.ofWord_eq_ok_iff.2 ⟨hfresh, rfl⟩
    have hsorted : ∀ f ∈ found.mergeSort Found.before, f.Legible := fun f hf =>
      hlegible f (List.mem_mergeSort.1 hf)
    obtain ⟨lost, hlost, hkeep⟩ := keep_spec (d.without (names.filter FileName.isDraft))
      (List.map_nil : [].map Component.range = []) hsorted hfresh
    have hrecover : recover folder format names d =
        keep (found.mergeSort Found.before) (freshId found) []
          (d.without (names.filter FileName.isDraft)) := by
      simp only [recover, hcollect, hok]
    rw [Directory.without_without] at hkeep
    rw [hrecover]
    refine ⟨_, fun name hname => ?_, hkeep.imp id fun hdone => ?_⟩
    · exact List.mem_append.2 ((List.mem_append.1 hname).imp id (hlost name))
    · obtain ⟨components, hkeep, hroom, rfl, hrest⟩ := hdone
      exact ⟨components, hkeep, hroom, rfl, hrest⟩
  · have herror : Outcome.ofWord (freshId found) = .error .breach := by
      rw [Outcome.ofWord, if_neg hfresh]
    refine ⟨names.filter FileName.isDraft, fun name hname => List.mem_append_left _ hname,
      .inl ⟨by simp only [recover, hcollect, herror], by omega⟩⟩

/-- What a recovery makes of a file, where the names of all files tell some numbers. -/
structure Becomes (told : List Nat) (w : Found) (c : Component) : Prop where
  range : c.range = w.range
  file : c.file = .ok w.name
  number : ∀ id, w.id = some id → c.id = id
  fresh : w.id = none → c.id ∉ told

/-- Files with the numbers told, or fresh ones above all those told, become components with these.
-/
theorem becomes_of_numbers {told : List Nat} {winners : List Found} {components : List Component}
    (hpairs : List.Forall₂ (fun w c => c.range = w.range ∧ c.file = .ok w.name) winners components)
    (hserials : components.map Component.serial = Found.numbers (above told) winners)
    (hroom : above told + Found.unnumbered winners < Numeral.word)
    (htold : winners.filterMap Found.id ⊆ told) :
    List.Forall₂ (Becomes told) winners components ∧
      components.map Component.id = Found.numbers (above told) winners := by
  have hnumbers := Found.forall₂_numbers (above told) winners
  rw [← hserials, List.forall₂_map_right_iff] at hnumbers
  have hboth := List.Forall₂.mp (fun _ _ => And.intro) hpairs hnumbers
  have hall := (List.forall₂_and_left (p := (· ∈ winners)) ..).2
    ⟨fun w hw => hw, hboth⟩
  have hids : List.Forall₂ (fun w c => Becomes told w c ∧ c.id = c.serial) winners components := by
    refine hall.imp ?_
    rintro w c ⟨hw, ⟨hrange, hfile⟩, hnumber, hfresh⟩
    cases hid : w.id with
    | some id =>
      have hmem : id ∈ told := htold (List.mem_filterMap.2 ⟨w, hw, hid⟩)
      have hserial := hnumber id hid
      have hbelow := lt_above hmem
      have hsame : c.id = c.serial := Component.id_of_lt (by omega)
      refine ⟨⟨hrange, hfile, fun id' hid' => ?_, fun hnone => ?_⟩, hsame⟩
      · rw [hsame, hnumber id' hid']
      · rw [hid] at hnone
        contradiction
    | none =>
      obtain ⟨hge, hlt⟩ := hfresh hid
      have hsame : c.id = c.serial := Component.id_of_lt (by omega)
      refine ⟨⟨hrange, hfile, fun id hid' => ?_, fun _ hmem => ?_⟩, hsame⟩
      · rw [hid] at hid'
        contradiction
      · have hbelow := lt_above hmem
        omega
  refine ⟨hids.imp fun w c h => h.1, ?_⟩
  rw [← hserials]
  refine List.map_congr_left fun c hc => ?_
  obtain ⟨w, -, -, hsame⟩ := exists_left hids hc
  exact hsame

/-- Some of the component files of a directory, by name. -/
structure Splits (d : Directory) (winners others : List Found) : Prop where
  component : ∀ w ∈ winners, FileName.isComponent w.name = true
  apart : ∀ w ∈ winners, w.name ∉ others.map Found.name
  listed : ∀ name ∈ d.names, FileName.isComponent name = true →
    name ∈ winners.map Found.name ∨ name ∈ others.map Found.name
  others : ∀ name ∈ others.map Found.name, FileName.isComponent name = true

theorem splits_of_perm {d : Directory} {found winners others : List Found} (hsorted : d.Sorted)
    (hperm : (found.map Found.name).Perm (d.names.filter FileName.isComponent))
    (hsplit : (winners ++ others).Perm found) : Splits d winners others := by
  have hnames := (hsplit.map Found.name).trans hperm
  rw [List.map_append] at hnames
  have hmem : ∀ name, name ∈ winners.map Found.name ∨ name ∈ others.map Found.name ↔
      name ∈ d.names ∧ FileName.isComponent name = true := by
    intro name
    rw [← List.mem_append, hnames.mem_iff, List.mem_filter]
  have hnodup := hnames.nodup_iff.2 ((Directory.nodup_names hsorted).filter _)
  refine ⟨fun w hw => ((hmem _).1 (.inl (List.mem_map_of_mem hw))).2, fun w hw hother => ?_,
    fun name hname hcomponent => (hmem name).2 ⟨hname, hcomponent⟩,
    fun name hname => ((hmem name).1 (.inr hname)).2⟩
  exact (List.nodup_append.1 hnodup).2.2 _ (List.mem_map_of_mem hw) _ hother rfl

theorem Splits.find?_without {d : Directory} {winners others : List Found}
    (h : Splits d winners others) {names lost : List String}
    (hlost : ∀ name ∈ lost, name ∈ names.filter FileName.isDraft ++ others.map Found.name)
    {w : Found} (hw : w ∈ winners) : (d.without lost).find? w.name = d.find? w.name := by
  have hstays : w.name ∉ lost := by
    intro hmem
    rcases List.mem_append.1 (hlost _ hmem) with hdraft | hother
    · have hnot := FileName.isComponent_of_isDraft (List.mem_filter.1 hdraft).2
      rw [h.component w hw] at hnot
      contradiction
    · exact h.apart w hw hother
  rw [Directory.without, Directory.find?_only, if_pos (decide_eq_true hstays)]

theorem Splits.without_eq {d : Directory} {winners others : List Found}
    (h : Splits d winners others) {names : List String} (hnames : names.Perm d.names) :
    d.without (names.filter FileName.isDraft ++ others.map Found.name) =
      d.only (spares (winners.map Found.name)) := by
  refine congrArg Directory.mk (List.filter_congr fun f hf => ?_)
  have hname : f.1 ∈ d.names := List.mem_map_of_mem hf
  have hlisted := h.listed f.1 hname
  have hother := h.others f.1
  have hapart : f.1 ∈ winners.map Found.name → f.1 ∉ others.map Found.name := by
    intro hwinner
    obtain ⟨w, hw, heq⟩ := List.mem_map.1 hwinner
    exact heq ▸ h.apart w hw
  rw [Bool.eq_iff_iff, decide_eq_true_iff, List.mem_append, List.mem_filter, hnames.mem_iff, spares,
    Bool.and_eq_true, Bool.or_eq_true, decide_eq_true_iff, Bool.not_eq_true', Bool.not_eq_true',
    ← Bool.not_eq_true, ← Bool.not_eq_true]
  tauto

/-- Of the component files there are only those of some names left. -/
theorem find?_only_spares {d : Directory} {names : List String} {name : String} {file : Bytes}
    (hcomponent : FileName.isComponent name = true) :
    (d.only (spares names)).find? name = some file ↔ name ∈ names ∧ d.find? name = some file := by
  have hspares : spares names name = true ↔ name ∈ names := by
    have hdraft : FileName.isDraft name = false := Bool.eq_false_iff.2 fun hdraft => by
      rw [FileName.isComponent_of_isDraft hdraft] at hcomponent
      contradiction
    rw [spares, hdraft, hcomponent]
    exact decide_eq_true_iff
  rw [Directory.find?_only, ← hspares]
  split <;> simp [*]

/-- Where a recovery has come to an end, all component files could be opened, and the components are
those of the outermost ones, of which alone there are files left. -/
theorem outermost_of_recover {d d' : Directory} {components : List Component} (hsorted : d.Sorted)
    (hrecover : recover folder format d.names d = (d', .ok components)) :
    (∀ name ∈ d.names, FileName.isComponent name = true →
      ∃ f : Found, f.name = name ∧ f.In folder format d) ∧
    d'.Sorted ∧ ∃ winners, Outermost folder format d winners ∧
      (∀ name file, FileName.isComponent name = true →
        (d'.find? name = some file ↔ ∃ w ∈ winners, w.name = name ∧ w.file = file)) ∧
      List.Forall₂ Yields winners components := by
  rw [recover] at hrecover
  split at hrecover
  · simp at hrecover
  · rename_i between found hcollect
    have hopens := opens_of_collect hcollect
    obtain ⟨found', hcollect', hmem, hperm⟩ := found_of_opens hsorted (.refl _) hopens
    obtain ⟨rfl, hfound⟩ := Prod.mk.inj (hcollect.symm.trans hcollect')
    obtain rfl := Except.ok.inj hfound
    split at hrecover
    · simp at hrecover
    · have hsort := List.mergeSort_perm found Found.before
      obtain ⟨rfl, new, rfl, hpairs⟩ := keep_eq_ok (List.map_nil : [].map Component.range = [])
        hrecover
      have houtermost : Outermost folder format d (Found.outer [] (found.mergeSort Found.before)) :=
        outermost_outer (fun f => List.mem_mergeSort.trans (hmem f))
          (List.pairwise_mergeSort Found.before_trans Found.before_total found)
      have hsplits := splits_of_perm hsorted hperm ((Found.outer_append_inner [] _).trans hsort)
      refine ⟨hopens, ?_, _, houtermost, fun name file hcomponent => ?_, hpairs⟩
      · rw [Directory.without_without]
        exact Directory.sorted_sublist hsorted List.filter_sublist
      rw [Directory.without_without, hsplits.without_eq (.refl _), find?_only_spares hcomponent,
        List.mem_map]
      constructor
      · rintro ⟨⟨w, hw, rfl⟩, hfile⟩
        exact ⟨w, hw, rfl, Option.some.inj ((houtermost.found w hw).lies.symm.trans hfile)⟩
      · rintro ⟨w, hw, rfl, rfl⟩
        exact ⟨⟨w, hw, rfl⟩, (houtermost.found w hw).lies⟩

/-- A bloom filter without keys. -/
def blankFilter : Bloom.Filter where
  hashes := 1
  bits := 64
  words := #[0]
  hashes_pos := by decide
  hashes_lt := by decide
  bits_pos := by decide
  bits_lt := by decide
  size_words := by decide

/-- A component file without tuples. -/
def blankFile (range : Range) : Bytes :=
  blankFilter.encode ++ Footer.encode ⟨16, 0, 0, 16, 0, range⟩

theorem exists_archive_of_blank (path : String) (codec : Codec) (keyFields : Nat) {range : Range}
    (hordered : range.min ≤ range.max) (hmax : range.max < Numeral.word) :
    ∃ archive, Archive.ofBytes path codec keyFields (blankFile range) = .ok archive ∧
      archive.footer.range = range ∧ ∃ filter, archive.filter (blankFile range) = .ok filter := by
  have hsize : blankFilter.encode.length = 16 := by decide
  have hzero : 0 < 2 ^ 64 := by decide
  have hsixteen : 16 < 2 ^ 64 := by decide
  have hbytes : blankFile range = [] ++ blankFilter.encode ++
      List.flatMap IndexEntry.encode [] ++ Footer.encode ⟨16, 0, 0, 16, 0, range⟩ := rfl
  have hopen : Archive.ofBytes path codec keyFields (blankFile range) = .ok _ :=
    Writer.ofBytes_parts hbytes rfl rfl rfl rfl rfl (by simp)
      ⟨hsixteen, hzero, hzero, hsixteen, hzero, hmax, hordered⟩ path
  have hroom : (blankFile range).length < Bytes.limit := by
    rw [blankFile, List.length_append, Footer.length_encode, hsize]
    decide
  have hfront : [] ++ blankFilter.encode <+: blankFile range := List.prefix_append _ _
  exact ⟨_, hopen, rfl, blankFilter, Writer.filter_parts hfront rfl rfl hroom⟩

/-- A directory of component files without tuples, of some names and ranges. -/
def blankDirectory (table : List (String × Range)) : Directory :=
  ⟨table.map fun f => (f.1, blankFile f.2)⟩

section Blank

variable {table : List (String × Range)} (hsorted : (blankDirectory table).Sorted)
  (htable : ∀ f ∈ table, f.2.min ≤ f.2.max ∧ f.2.max < Numeral.word)

include hsorted htable

theorem readable_blankDirectory (folder : String) (format : Format) :
    Readable folder format (blankDirectory table) := by
  intro name hname hcomponent
  obtain ⟨file, hfile⟩ := (Directory.mem_names_iff hsorted).1 hname
  obtain ⟨f, hf, heq⟩ := List.mem_map.1 ((Directory.find?_eq_some_iff hsorted).1 hfile)
  obtain ⟨rfl, rfl⟩ := Prod.mk.inj heq
  obtain ⟨archive, hopen, -, hfilter⟩ := exists_archive_of_blank (folder ++ "/" ++ f.1)
    format.codec format.keyFields (htable f hf).1 (htable f hf).2
  exact ⟨⟨f.1, FileName.id? f.1, archive, _⟩, rfl, ⟨hcomponent, hfile, rfl, hopen⟩, hfilter⟩

theorem mem_of_in_blankDirectory {f : Found} (hf : f.In folder format (blankDirectory table)) :
    (f.name, f.range) ∈ table := by
  obtain ⟨g, hg, heq⟩ := List.mem_map.1 ((Directory.find?_eq_some_iff hsorted).1 hf.lies)
  obtain ⟨hname, hfile⟩ := Prod.mk.inj heq
  obtain ⟨archive, hopen, hrange, -⟩ := exists_archive_of_blank (folder ++ "/" ++ f.name)
    format.codec format.keyFields (htable g hg).1 (htable g hg).2
  have hopened := hf.opened
  rw [← hfile, hopen] at hopened
  rw [Found.range, ← Except.ok.inj hopened, hrange, ← hname]
  exact hg

end Blank

/-- A recovery that takes files in any order keeps the outermost of them, one for each range that
lies properly in no other, and removes the others. It breaks off just where numbers run out.
Otherwise numbers are distinct, and ranges descend at both ends. -/
theorem recover_keeps_outermost (folder : String) (format : Format) {names : List String}
    {d : Directory} (hsorted : d.Sorted) (hnames : names.Perm d.names)
    (hreadable : Readable folder format d) (htold : (told d).Nodup) :
    ∃ winners, Outermost folder format d winners ∧
      (∀ f : Found, f.In folder format d →
        (∀ g : Found, g.In folder format d → g.range.contains f.range = true →
          g.range = f.range) → ∃! w, w ∈ winners ∧ w.range = f.range) ∧
      (∀ w ∈ winners, (recover folder format names d).1.find? w.name = some w.file) ∧
      ((recover folder format names d).2 = .error .breach ↔
        Numeral.word ≤ above (told d) + Found.unnumbered winners) ∧
      (above (told d) + Found.unnumbered winners < Numeral.word →
        ∃ components, recover folder format names d =
            (d.only (spares (winners.map Found.name)), .ok components) ∧
          List.Forall₂ (Becomes (told d)) winners components ∧
          (components.map Component.id).Nodup ∧
          (components.map Component.range).Pairwise Range.Ahead) := by
  obtain ⟨found, hcollect, hmem, hlegible, hperm⟩ := exists_found hsorted hnames hreadable
  have hsort := List.mergeSort_perm found Found.before
  have hmem' : ∀ f : Found, f ∈ found.mergeSort Found.before ↔ f.In folder format d := fun f =>
    List.mem_mergeSort.trans (hmem f)
  have houtermost := outermost_outer hmem'
    (List.pairwise_mergeSort Found.before_trans Found.before_total found)
  have hids := perm_told (fun f hf => (hmem f).1 hf) hperm
  have hfresh : freshId found = above (told d) := above_congr fun n => hids.mem_iff
  have hsplits := splits_of_perm hsorted hperm ((Found.outer_append_inner [] _).trans hsort)
  obtain ⟨lost, hlost, hrecover⟩ := recover_cases hcollect hlegible
  rw [hfresh] at hrecover
  refine ⟨_, houtermost, fun f hf hmax => houtermost.existsUnique hf hmax, fun w hw => ?_, ?_, ?_⟩
  · have hfiles : (recover folder format names d).1 = d.without lost := by
      rcases hrecover with ⟨hbreach, -⟩ | ⟨components, hok, -⟩
      · rw [hbreach]
      · rw [hok]
    rw [hfiles, hsplits.find?_without hlost hw]
    exact (houtermost.found w hw).lies
  · rcases hrecover with ⟨hbreach, hover⟩ | ⟨components, hok, hroom, -⟩
    · exact iff_of_true (congrArg Prod.snd hbreach) hover
    · refine iff_of_false ?_ (Nat.not_le.2 hroom)
      rw [hok]
      simp
  · intro hroom
    obtain ⟨components, hok, -, rfl, hpairs, hserials⟩ := hrecover.resolve_left fun hbreach =>
      Nat.not_lt.2 hbreach.2 hroom
    rw [hsplits.without_eq hnames] at hok
    have hwinners : (Found.outer [] (found.mergeSort Found.before)).filterMap Found.id ⊆ told d :=
      fun id hid => hids.subset ((hsort.filterMap _).subset
        (((Found.outer_sublist [] _).filterMap _).subset hid))
    have hnodup : ((Found.outer [] (found.mergeSort Found.before)).filterMap Found.id).Nodup :=
      ((hsort.filterMap _).trans hids |>.nodup_iff.2 htold).sublist
        ((Found.outer_sublist [] _).filterMap _)
    obtain ⟨hbecomes, hnumbers⟩ := becomes_of_numbers hpairs hserials hroom hwinners
    refine ⟨components, hok, hbecomes, ?_, ?_⟩
    · rw [hnumbers]
      exact Found.nodup_numbers hnodup fun id hid => lt_above (hwinners hid)
    · rw [map_eq hpairs fun w c h => h.1]
      exact List.pairwise_map.2 houtermost.descending

/-- Three files are taken against the order of their names, and the recovery comes to an end. Of
four others one tells the last number but one, and there is no second fresh one. -/
theorem recover_blank_directories :
    let format : Format :=
      { codec := .plain [.varying], blockSize := 64, rate := 0.01, keyFields := 1 }
    let names := ["x.cmp", "c3-1_000004.cmp", "c2-2_000001.cmp"]
    let d := blankDirectory
      [("c2-2_000001.cmp", ⟨2, 2⟩), ("c3-1_000004.cmp", ⟨1, 3⟩), ("x.cmp", ⟨4, 5⟩)]
    let crowded := blankDirectory [("a_18446744073709551614.cmp", ⟨4, 4⟩), ("b_0.cmp", ⟨3, 3⟩),
      ("x.cmp", ⟨2, 2⟩), ("y.cmp", ⟨1, 1⟩)]
    (∃ components, (recover "" format names d).2 = .ok components ∧
      (components.map Component.id).Nodup ∧
      (components.map Component.range).Pairwise Range.Ahead) ∧
    (recover "" format crowded.names crowded).2 = .error .breach := by
  intro format names d crowded
  constructor
  · have hsorted : d.Sorted := by
      unfold Directory.Sorted
      decide +kernel
    have htold : told d = [1, 4] := by decide +kernel
    have hnames : names.Perm d.names := by decide +kernel
    obtain ⟨winners, houtermost, -, -, -, hroom⟩ := recover_keeps_outermost "" format
      hsorted hnames (readable_blankDirectory hsorted (by decide) "" format) (by rw [htold]; decide)
    have hfew : Found.unnumbered winners ≤ 3 :=
      Nat.le_trans List.countP_le_length (houtermost.length_le hsorted)
    rw [htold] at hroom
    obtain ⟨components, hok, -, hnodup, hahead⟩ := hroom (by
      have habove : above [1, 4] = 5 := by decide
      have hword : 8 < Numeral.word := by decide
      omega)
    exact ⟨components, congrArg Prod.snd hok, hnodup, hahead⟩
  · have hsorted : crowded.Sorted := by
      unfold Directory.Sorted
      decide +kernel
    have htold : told crowded = [18446744073709551614, 0] := by decide +kernel
    have hreadable := readable_blankDirectory hsorted (by decide) "" format
    obtain ⟨winners, houtermost, hunique, -, hbreach, -⟩ := recover_keeps_outermost "" format
      hsorted (.refl _) hreadable (by rw [htold]; decide)
    have htable : ∀ f : Found, f.In "" format crowded →
        f.name = "a_18446744073709551614.cmp" ∧ f.range = ⟨4, 4⟩ ∨
          f.name = "b_0.cmp" ∧ f.range = ⟨3, 3⟩ ∨
          f.name = "x.cmp" ∧ f.range = ⟨2, 2⟩ ∨ f.name = "y.cmp" ∧ f.range = ⟨1, 1⟩ := by
      intro f hf
      simpa using mem_of_in_blankDirectory hsorted (by decide) hf
    obtain ⟨f, hname, hf, -⟩ := hreadable "x.cmp" (by decide) (by decide +kernel)
    have hfrange : f.range = ⟨2, 2⟩ := by simpa [hname] using htable f hf
    obtain ⟨w, ⟨hw, hrange⟩, -⟩ := hunique f hf fun g hg hcontains => by
      rw [hfrange] at hcontains ⊢
      rcases htable g hg with ⟨-, hrange⟩ | ⟨-, hrange⟩ | ⟨-, hrange⟩ | ⟨-, hrange⟩
      all_goals rw [hrange] at hcontains
      · contradiction
      · contradiction
      · exact hrange
      · contradiction
    have hin := houtermost.found w hw
    have hwname : w.name = "x.cmp" := by simpa [hrange, hfrange] using htable w hin
    have hpositive : 0 < Found.unnumbered winners := by
      refine List.countP_pos_iff.2 ⟨w, hw, ?_⟩
      rw [hin.id, hwname]
      decide +kernel
    rw [hbreach, htold]
    have habove : above [18446744073709551614, 0] = 18446744073709551615 := by decide
    have hword : Numeral.word = 18446744073709551616 := by decide
    omega

end Recovery

end Strata
