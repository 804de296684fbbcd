import Mathlib.Data.List.Infix
import Mathlib.Data.List.Nodup
import Strata.Component
import Strata.Lifecycle

/-!
# Who holds which components

Parties take lists of components down, claim components, and hand them back or replace them. A list
that was taken down goes out of date, but not in every way: what of it is still listed stands
together still, since a component that comes in later comes first or stands where others stood
together. So a claimed stretch of such a list is a stretch of the list there is now, and its holder
alone can replace it.
-/

namespace Strata

/-- A stretch without a member lies on one side of it. -/
theorem infix_cut {α : Type} {ms front back : List α} {m : α} (h : ms <:+: front ++ m :: back)
    (hm : m ∉ ms) : ms <:+: front ∨ ms <:+: back := by
  have hnil : ∀ {more : List α}, ms <+: m :: more → ms <:+: back := by
    intro more hmore
    rcases List.prefix_cons_iff.1 hmore with rfl | ⟨rest, rfl, -⟩
    · exact List.nil_infix
    · simp at hm
  induction front with
  | nil =>
    rcases List.infix_cons_iff.1 h with hprefix | hback
    · exact .inr (hnil hprefix)
    · exact .inr hback
  | cons a front ih =>
    rcases List.infix_cons_iff.1 h with hprefix | hrest
    · have hcut : a :: front ++ [m] <+: a :: front ++ m :: back := by simp
      rcases List.prefix_or_prefix_of_prefix hprefix hcut with hshort | hlong
      · rcases List.prefix_concat_iff.1 hshort with rfl | hfront
        · simp at hm
        · exact .inl hfront.isInfix
      · exact absurd (hlong.subset (by simp)) hm
    · exact (ih hrest).imp (List.infix_cons ·) id

/-- A stretch that has nothing of the front lies behind it. -/
theorem infix_strip {α : Type} {ms front back : List α} (h : ms <:+: front ++ back)
    (hapart : ∀ m ∈ front, m ∉ ms) : ms <:+: back := by
  induction front with
  | nil => exact h
  | cons m front ih =>
    rw [List.forall_mem_cons] at hapart
    rcases @infix_cut _ _ [] _ _ h hapart.1 with hnil | hrest
    · rw [List.infix_nil.1 hnil]
      exact List.nil_infix
    · exact ih hrest hapart.2

/-- A stretch that has nothing of some members that stand together lies on one side of them. -/
theorem infix_beside {α : Type} {ms newer members older : List α}
    (h : ms <:+: newer ++ members ++ older) (hapart : ∀ m ∈ members, m ∉ ms)
    (hplace : members ≠ [] ∨ newer = []) : ms <:+: newer ∨ ms <:+: older := by
  cases members with
  | nil =>
    obtain rfl : newer = [] := hplace.resolve_left fun hne => hne rfl
    exact .inr h
  | cons m rest =>
    rw [List.forall_mem_cons] at hapart
    rw [List.append_assoc, List.cons_append] at h
    exact (infix_cut h hapart.1).imp id fun hback => infix_strip hback hapart.2

/-- A stretch that has nothing of the members of a merge still stands together when they are
replaced. -/
theorem infix_replace {α : Type} {ms newer members older : List α} (result : α)
    (h : ms <:+: newer ++ members ++ older) (hapart : ∀ m ∈ members, m ∉ ms)
    (hplace : members ≠ [] ∨ newer = []) : ms <:+: newer ++ [result] ++ older := by
  rcases infix_beside h hapart hplace with hnewer | holder
  · rw [List.append_assoc]
    exact hnewer.trans (List.prefix_append ..).isInfix
  · exact holder.trans (List.suffix_append ..).isInfix

/-! ### One element in the place of some that stand together -/

section Replacement

variable {α : Type} {newer members older : List α} {result c : α}

/-- All but the members are left. -/
theorem mem_replace_of_not_mem (result : α) (h : c ∈ newer ++ members ++ older)
    (hc : c ∉ members) : c ∈ newer ++ [result] ++ older := by
  simp only [List.mem_append, hc, or_false] at h
  rcases h with h | h <;> simp [h]

/-- Nothing but the one element is new. -/
theorem mem_of_mem_replace (members : List α) (h : c ∈ newer ++ [result] ++ older) :
    c = result ∨ c ∈ newer ++ members ++ older := by
  simp only [List.mem_append, List.mem_singleton] at h ⊢
  tauto

/-- The members are gone. -/
theorem not_mem_replace (hnodup : (newer ++ members ++ older).Nodup) (hresult : result ∉ members)
    (hc : c ∈ members) : c ∉ newer ++ [result] ++ older := by
  obtain ⟨hleft, -, hacross⟩ := List.nodup_append.1 hnodup
  have hbetween := (List.nodup_append.1 hleft).2.2
  intro hmem
  rcases List.mem_append.1 hmem with hmem | hmem
  · rcases List.mem_append.1 hmem with hmem | hmem
    · exact hbetween c hmem c hc rfl
    · rw [List.mem_singleton.1 hmem] at hc
      exact hresult hc
  · exact hacross c (List.mem_append_right _ hc) c hmem rfl

end Replacement

/-- The components that parties see: those listed, newest first, all that have been listed, their
states, and the next count of one. -/
structure Desk where
  listed : List Component
  known : List Component
  states : Lifecycle
  next : Nat

/-- What a party has of components. -/
structure Party where
  /-- Lists taken down from the one there was at the time, or stretches of such lists. -/
  tracked : List (List Component) := []
  /-- Components claimed. -/
  held : List Component := []
  /-- Components replaced, but not yet inactive. -/
  leaving : List Component := []
  /-- Counts of components not yet listed. -/
  making : List Nat := []

namespace Desk

/-- A list that was taken down: what is not listed any more will not be claimed, and what is listed
stands together as it did. -/
structure Tracks (d : Desk) (xs : List Component) : Prop where
  known : ∀ c ∈ xs, c ∈ d.known
  listed : ∀ c ∈ xs, c ∈ d.listed ∨ d.states.state c.serial ≠ .readable
  together : ∀ ms, ms <:+: xs → (∀ c ∈ ms, c ∈ d.listed) → ms <:+: d.listed

/-- What holds of the components of one party. -/
structure Admits (d : Desk) (p : Party) : Prop where
  tracked : ∀ xs ∈ p.tracked, d.Tracks xs
  held : ∀ c ∈ p.held, c ∈ d.listed ∧ d.states.state c.serial = .merging
  leaving : ∀ c ∈ p.leaving, c ∈ d.known ∧ c ∉ d.listed ∧ d.states.state c.serial = .merging
  making : ∀ n ∈ p.making, n < d.next ∧ ∀ c ∈ d.known, c.serial ≠ n

end Desk

/-- Members of a list that was taken down stand together if a party holds them all. -/
theorem Desk.Admits.infix_listed {d : Desk} {p : Party} (h : d.Admits p) {members : List Component}
    (htracked : members ∈ p.tracked) (hheld : ∀ c ∈ members, c ∈ p.held) : members <:+: d.listed :=
  (h.tracked members htracked).together members List.infix_rfl fun c hc => (h.held c (hheld c hc)).1

/-- The components a party alone may move. -/
def Party.tokens (p : Party) : List Component := p.held ++ p.leaving

namespace Desk

/-- No component is in the hands of two parties. -/
structure Orderly (d : Desk) (parties : List Party) : Prop where
  serials : (d.known.map Component.serial).Nodup
  low : ∀ c ∈ d.known, c.serial < d.next
  listed : ∀ c ∈ d.listed, c ∈ d.known
  nodup : d.listed.Nodup
  admits : ∀ p ∈ parties, d.Admits p
  tokens : (parties.flatMap Party.tokens).Nodup
  making : (parties.flatMap Party.making).Nodup

variable {d : Desk} {p q : Party} {parties others : List Party} {c : Component}

theorem eq_of_serial_eq (h : d.Orderly parties) {c c' : Component} (hc : c ∈ d.known)
    (hc' : c' ∈ d.known) (heq : c.serial = c'.serial) : c = c' :=
  List.inj_on_of_nodup_map h.serials hc hc' heq

theorem Orderly.perm (h : d.Orderly parties) (hperm : parties.Perm others) : d.Orderly others where
  serials := h.serials
  low := h.low
  listed := h.listed
  nodup := h.nodup
  admits p hp := h.admits p (hperm.mem_iff.2 hp)
  tokens := ((hperm.flatMap_right Party.tokens).nodup_iff).1 h.tokens
  making := ((hperm.flatMap_right Party.making).nodup_iff).1 h.making

/-- A party without anything may come and go. -/
theorem orderly_cons_empty : d.Orderly ({} :: parties) ↔ d.Orderly parties := by
  constructor
  · intro h
    exact ⟨h.serials, h.low, h.listed, h.nodup,
      fun p hp => h.admits p (List.mem_cons_of_mem _ hp), h.tokens, h.making⟩
  · intro h
    refine ⟨h.serials, h.low, h.listed, h.nodup, fun p hp => ?_, h.tokens, h.making⟩
    rcases List.mem_cons.1 hp with rfl | hp
    · exact ⟨by simp, by simp, by simp, by simp⟩
    · exact h.admits p hp

theorem Tracks.part {xs ys : List Component} (h : d.Tracks ys) (hxs : xs <:+: ys) :
    d.Tracks xs where
  known c hc := h.known c (hxs.subset hc)
  listed c hc := h.listed c (hxs.subset hc)
  together ms hms := h.together ms (hms.trans hxs)

/-- Claimed components are known, as are those that leave. -/
theorem known_of_mem_tokens (h : d.Orderly parties) (hp : p ∈ parties) (hc : c ∈ p.tokens) :
    c ∈ d.known ∧ d.states.state c.serial = .merging := by
  rcases List.mem_append.1 hc with hheld | hleaving
  · obtain ⟨hlisted, hstate⟩ := (h.admits p hp).held c hheld
    exact ⟨h.listed c hlisted, hstate⟩
  · obtain ⟨hknown, -, hstate⟩ := (h.admits p hp).leaving c hleaving
    exact ⟨hknown, hstate⟩

end Desk

/-- A party has nothing that another has not. -/
structure Party.Within (q p : Party) : Prop where
  tracked : ∀ xs ∈ q.tracked, ∃ ys ∈ p.tracked, xs <:+: ys
  held : List.Sublist q.held p.held
  leaving : List.Sublist q.leaving p.leaving
  making : List.Sublist q.making p.making

theorem Party.within_self (p : Party) : p.Within p :=
  ⟨fun xs hxs => ⟨xs, hxs, List.infix_rfl⟩, List.Sublist.refl _, List.Sublist.refl _,
    List.Sublist.refl _⟩

theorem Party.empty_within (p : Party) : Party.Within {} p :=
  ⟨by simp, List.nil_sublist _, List.nil_sublist _, List.nil_sublist _⟩

namespace Desk

variable {d : Desk} {p q : Party} {parties : List Party} {c : Component}

/-- A party may forget what it has. -/
theorem orderly_narrow (h : d.Orderly (p :: parties)) (hq : q.Within p) :
    d.Orderly (q :: parties) := by
  have hp := h.admits p List.mem_cons_self
  have htokens := h.tokens
  have hmaking := h.making
  rw [List.flatMap_cons] at htokens hmaking
  refine ⟨h.serials, h.low, h.listed, h.nodup, fun r hr => ?_, ?_, ?_⟩
  · rcases List.mem_cons.1 hr with rfl | hr
    · refine ⟨fun xs hxs => ?_, fun c hc => hp.held c (hq.held.subset hc),
        fun c hc => hp.leaving c (hq.leaving.subset hc),
        fun n hn => hp.making n (hq.making.subset hn)⟩
      obtain ⟨ys, hys, hinfix⟩ := hq.tracked xs hxs
      exact (hp.tracked ys hys).part hinfix
    · exact h.admits r (List.mem_cons_of_mem _ hr)
  · exact htokens.sublist ((hq.held.append hq.leaving).append (List.Sublist.refl _))
  · exact hmaking.sublist (hq.making.append (List.Sublist.refl _))

theorem orderly_clear (h : d.Orderly (p :: parties)) : d.Orderly ({} :: parties) :=
  orderly_narrow h (Party.empty_within p)

theorem orderly_untrack (h : d.Orderly (p :: parties)) :
    d.Orderly ({ p with tracked := [] } :: parties) :=
  orderly_narrow h ⟨by simp, List.Sublist.refl _, List.Sublist.refl _, List.Sublist.refl _⟩

/-- A party may take down the list there is. -/
theorem orderly_track (h : d.Orderly (p :: parties)) :
    d.Orderly ({ p with tracked := d.listed :: p.tracked } :: parties) := by
  have hp := h.admits p List.mem_cons_self
  refine ⟨h.serials, h.low, h.listed, h.nodup, fun r hr => ?_, h.tokens, h.making⟩
  rcases List.mem_cons.1 hr with rfl | hr
  · refine ⟨fun xs hxs => ?_, hp.held, hp.leaving, hp.making⟩
    rcases List.mem_cons.1 hxs with rfl | hxs
    · exact ⟨h.listed, fun c hc => .inl hc, fun ms hms _ => hms⟩
    · exact hp.tracked xs hxs
  · exact h.admits r (List.mem_cons_of_mem _ hr)

/-- The state of a component that nobody holds may change, so that only what is listed is readable.
-/
theorem orderly_set (h : d.Orderly parties) {state : State} (hc : c ∈ d.known)
    (hfree : ∀ p ∈ parties, c ∉ p.tokens) (hstate : c ∈ d.listed ∨ state ≠ .readable) :
    { d with states := d.states.set c.serial state }.Orderly parties := by
  refine ⟨h.serials, h.low, h.listed, h.nodup, fun p hp => ?_, h.tokens, h.making⟩
  have hadmits := h.admits p hp
  have hother : ∀ c' ∈ p.tokens, c'.serial ≠ c.serial := by
    intro c' hc' heq
    have := eq_of_serial_eq h (known_of_mem_tokens h hp hc').1 hc heq
    exact hfree p hp (this ▸ hc')
  refine ⟨fun xs hxs => ?_, fun c' hc' => ?_, fun c' hc' => ?_, hadmits.making⟩
  · have htracks := hadmits.tracked xs hxs
    refine ⟨htracks.known, fun c' hc' => ?_, htracks.together⟩
    by_cases heq : c'.serial = c.serial
    · obtain rfl := eq_of_serial_eq h (htracks.known c' hc') hc heq
      simpa using hstate
    · simpa [heq] using htracks.listed c' hc'
  · have hne := hother c' (List.mem_append_left _ hc')
    simpa [hne] using hadmits.held c' hc'
  · have hne := hother c' (List.mem_append_right _ hc')
    simpa [hne] using hadmits.leaving c' hc'

/-- A readable component of a list that was taken down may be claimed. -/
theorem orderly_claim (h : d.Orderly (p :: parties)) {xs : List Component} (hxs : xs ∈ p.tracked)
    (hc : c ∈ xs) (hreadable : d.states.state c.serial = .readable) :
    { d with states := d.states.set c.serial .merging }.Orderly
      ({ p with held := p.held ++ [c] } :: parties) := by
  have htracks := (h.admits p List.mem_cons_self).tracked xs hxs
  have hlisted : c ∈ d.listed := (htracks.listed c hc).resolve_right fun hne => hne hreadable
  have hfree : ∀ q ∈ p :: parties, c ∉ q.tokens := by
    intro q hq hmem
    have hmerging := (known_of_mem_tokens h hq hmem).2
    rw [hreadable] at hmerging
    contradiction
  have hset := @orderly_set d _ c h .merging (htracks.known c hc) hfree (.inl hlisted)
  have hp := hset.admits p List.mem_cons_self
  refine ⟨hset.serials, hset.low, hset.listed, hset.nodup, fun q hq => ?_, ?_, hset.making⟩
  · rcases List.mem_cons.1 hq with rfl | hq
    · refine ⟨hp.tracked, fun c' hc' => ?_, hp.leaving, hp.making⟩
      rcases List.mem_append.1 hc' with hc' | hc'
      · exact hp.held c' hc'
      · rw [List.mem_singleton.1 hc']
        exact ⟨hlisted, by simp⟩
    · exact hset.admits q (List.mem_cons_of_mem _ hq)
  · have hmove : ((p.held ++ [c] ++ p.leaving) ++ parties.flatMap Party.tokens).Perm
        (c :: (p :: parties).flatMap Party.tokens) := by
      rw [List.flatMap_cons, Party.tokens, List.append_assoc, List.append_assoc, List.append_assoc]
      exact List.perm_middle
    rw [List.flatMap_cons]
    refine hmove.nodup_iff.2 (List.nodup_cons.2 ⟨fun hmem => ?_, h.tokens⟩)
    obtain ⟨q, hq, hcq⟩ := List.mem_flatMap.1 hmem
    exact hfree q hq hcq

/-- A component given out of hand is moved on: handed back if it is listed. -/
theorem orderly_drop (h : d.Orderly (p :: parties)) (hq : q.Within p) {state : State}
    (hc : c ∈ p.tokens) (hgone : c ∉ q.tokens) (hstate : c ∈ d.listed ∨ state ≠ .readable) :
    { d with states := d.states.set c.serial state }.Orderly (q :: parties) := by
  refine orderly_set (orderly_narrow h hq) (known_of_mem_tokens h List.mem_cons_self hc).1 ?_ hstate
  intro r hr
  rcases List.mem_cons.1 hr with rfl | hr
  · exact hgone
  · intro hmem
    have htokens := h.tokens
    rw [List.flatMap_cons] at htokens
    exact (List.nodup_append.1 htokens).2.2 c hc c (List.mem_flatMap.2 ⟨r, hr, hmem⟩) rfl

/-- Counts may be left out. -/
theorem orderly_raise (h : d.Orderly parties) {n : Nat} (hn : d.next ≤ n) :
    { d with next := n }.Orderly parties := by
  refine ⟨h.serials, fun c hc => Nat.lt_of_lt_of_le (h.low c hc) hn, h.listed, h.nodup,
    fun p hp => ?_, h.tokens, h.making⟩
  have hadmits := h.admits p hp
  refine ⟨fun xs hxs => ?_, hadmits.held, hadmits.leaving, fun m hm => ?_⟩
  · obtain ⟨hknown, hlisted, htogether⟩ := hadmits.tracked xs hxs
    exact ⟨hknown, hlisted, htogether⟩
  · obtain ⟨hlt, hnew⟩ := hadmits.making m hm
    exact ⟨Nat.lt_of_lt_of_le hlt hn, hnew⟩

/-- The next count may be taken. -/
theorem orderly_number (h : d.Orderly (p :: parties)) :
    { d with next := d.next + 1 }.Orderly
      ({ p with making := d.next :: p.making } :: parties) := by
  have hraise := orderly_raise h (Nat.le_succ d.next)
  have hp := hraise.admits p List.mem_cons_self
  refine ⟨hraise.serials, hraise.low, hraise.listed, hraise.nodup, fun q hq => ?_,
    hraise.tokens, ?_⟩
  · rcases List.mem_cons.1 hq with rfl | hq
    · refine ⟨hp.tracked, hp.held, hp.leaving, fun n hn => ?_⟩
      rcases List.mem_cons.1 hn with rfl | hn
      · exact ⟨Nat.lt_succ_self _, fun c hc => Nat.ne_of_lt (h.low c hc)⟩
      · exact hp.making n hn
    · exact hraise.admits q (List.mem_cons_of_mem _ hq)
  · rw [List.flatMap_cons, List.cons_append, List.nodup_cons]
    refine ⟨fun hmem => ?_, h.making⟩
    rw [← List.flatMap_cons] at hmem
    obtain ⟨q, hq, hmade⟩ := List.mem_flatMap.1 hmem
    exact absurd ((h.admits q hq).making _ hmade).1 (Nat.lt_irrefl _)

section Listing

variable {newer members older : List Component} {result : Component}

/-- A list that was taken down goes out of date where a component takes the place of claimed ones;
what of it is still listed stands together as it did. -/
theorem Tracks.list {xs : List Component} (h : d.Tracks xs)
    (hlisted : d.listed = newer ++ members ++ older) (hplace : members ≠ [] ∨ newer = [])
    (hgone : ∀ c ∈ members, c ∉ newer ++ [result] ++ older) (hunknown : result ∉ d.known)
    (hmerging : ∀ c ∈ members, d.states.state c.serial = .merging) :
    { d with
      listed := newer ++ [result] ++ older
      known := result :: d.known }.Tracks xs where
  known c hc := List.mem_cons_of_mem _ (h.known c hc)
  listed c hc := by
    by_cases hmember : c ∈ members
    · refine .inr ?_
      rw [hmerging c hmember]
      decide
    · exact (h.listed c hc).imp
        (fun hin => mem_replace_of_not_mem result (hlisted ▸ hin) hmember) id
  together ms hms hin := by
    have hold : ∀ c ∈ ms, c ∈ d.listed := by
      intro c hc
      rw [hlisted]
      refine (mem_of_mem_replace members (hin c hc)).resolve_left ?_
      rintro rfl
      exact hunknown (h.known c (hms.subset hc))
    have hstretch := h.together ms hms hold
    rw [hlisted] at hstretch
    exact infix_replace result hstretch (fun m hm hmem => hgone m hm (hin m hmem)) hplace

/-- A party keeps what it has where a component takes the place of claimed ones that are not in its
hands. -/
theorem Admits.list (h : d.Admits q)
    (hlisted : d.listed = newer ++ members ++ older) (hplace : members ≠ [] ∨ newer = [])
    (hgone : ∀ c ∈ members, c ∉ newer ++ [result] ++ older) (hunknown : result ∉ d.known)
    (hmerging : ∀ c ∈ members, d.states.state c.serial = .merging)
    (hheld : ∀ c ∈ q.held, c ∉ members) (hmaking : result.serial ∉ q.making) :
    { d with
      listed := newer ++ [result] ++ older
      known := result :: d.known }.Admits q where
  tracked xs hxs := (h.tracked xs hxs).list hlisted hplace hgone hunknown hmerging
  held c hc := by
    obtain ⟨hin, hstate⟩ := h.held c hc
    exact ⟨mem_replace_of_not_mem result (hlisted ▸ hin) (hheld c hc), hstate⟩
  leaving c hc := by
    obtain ⟨hin, hout, hstate⟩ := h.leaving c hc
    refine ⟨List.mem_cons_of_mem _ hin, fun hmem => hout ?_, hstate⟩
    rw [hlisted]
    refine (mem_of_mem_replace members hmem).resolve_left ?_
    rintro rfl
    exact hunknown hin
  making n hn := by
    obtain ⟨hlt, hother⟩ := h.making n hn
    exact ⟨hlt, List.forall_mem_cons.2 ⟨fun heq => hmaking (heq ▸ hn), hother⟩⟩

/-- A component is listed where components stood that its maker holds, or first. -/
theorem orderly_list (h : d.Orderly ({ held := members, making := [result.serial] } :: parties))
    (hlisted : d.listed = newer ++ members ++ older) (hplace : members ≠ [] ∨ newer = []) :
    { d with
      listed := newer ++ [result] ++ older
      known := result :: d.known }.Orderly ({ leaving := members } :: parties) := by
  have hself := h.admits _ List.mem_cons_self
  obtain ⟨hlow, hnew⟩ := hself.making result.serial (List.mem_singleton_self _)
  have hunknown : result ∉ d.known := fun hmem => hnew result hmem rfl
  have htokens := h.tokens
  have hmaking := h.making
  rw [List.flatMap_cons] at htokens hmaking
  have hnodup := h.nodup
  rw [hlisted] at hnodup
  have hgone : ∀ c ∈ members, c ∉ newer ++ [result] ++ older := by
    refine fun c hc => not_mem_replace hnodup (fun hmem => hunknown (h.listed _ ?_)) hc
    exact (hself.held result hmem).1
  have hmerging : ∀ c ∈ members, d.states.state c.serial = .merging := fun c hc =>
    (hself.held c hc).2
  exact {
    serials := by
      refine List.nodup_cons.2 ⟨fun hmem => ?_, h.serials⟩
      obtain ⟨c, hc, heq⟩ := List.mem_map.1 hmem
      exact hnew c hc heq
    low := List.forall_mem_cons.2 ⟨hlow, h.low⟩
    listed := fun c hc => by
      rcases mem_of_mem_replace members hc with rfl | hold
      · exact List.mem_cons_self
      · exact List.mem_cons_of_mem _ (h.listed c (hlisted ▸ hold))
    nodup := by
      have hsub : (newer ++ older).Sublist (newer ++ members ++ older) :=
        (List.sublist_append_left newer members).append (List.Sublist.refl older)
      rw [List.append_assoc]
      refine List.perm_middle.nodup_iff.2 (List.nodup_cons.2 ⟨fun hmem => ?_, hnodup.sublist hsub⟩)
      exact hunknown (h.listed _ (hlisted ▸ hsub.subset hmem))
    admits := by
      refine List.forall_mem_cons.2 ⟨⟨by simp, by simp, fun c hc => ?_, by simp⟩, fun q hq => ?_⟩
      · obtain ⟨hin, hstate⟩ := hself.held c hc
        exact ⟨List.mem_cons_of_mem _ (h.listed c hin), hgone c hc, hstate⟩
      · refine (h.admits q (List.mem_cons_of_mem _ hq)).list hlisted hplace hgone hunknown hmerging
          (fun c hc hmember => ?_) fun hmade => ?_
        · exact (List.nodup_append.1 htokens).2.2 c (List.mem_append_left _ hmember) c
            (List.mem_flatMap.2 ⟨q, hq, List.mem_append_left _ hc⟩) rfl
        · exact (List.nodup_append.1 hmaking).2.2 result.serial (List.mem_singleton_self _)
            result.serial (List.mem_flatMap.2 ⟨q, hq, hmade⟩) rfl
    tokens := by
      rw [List.flatMap_cons]
      simpa [Party.tokens] using htokens
    making := (List.nodup_append.1 hmaking).2.1 }

end Listing

end Desk

end Strata
