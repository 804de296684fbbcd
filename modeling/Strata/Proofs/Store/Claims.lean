import Mathlib.Data.List.Nodup
import Strata.Proofs.Store.Turns

/-!
# Claims on components

A component is claimed by taking it from readable to merging, and whoever did so answers for it: it
makes the component inactive, hands it back, or passes it on to a merge. What threads have at stake
is kept here by the counts of components, so nothing depends on how they are numbered. A component
is in the hands of one thread, or was set aside by a merge that is not tried again, just as long as
it is merging.
-/

namespace Strata

/-- What claims depend on: the list of components, their states, and the next count. -/
structure Ledger where
  roster : Roster
  states : Lifecycle
  next : Nat

/-- What a thread has at stake. -/
structure Stake where
  /-- Components it may claim. -/
  seen : List Component := []
  /-- Components it answers for. -/
  owned : List Component := []
  /-- Those of them it has not made inactive yet. -/
  claimed : List Component := []
  /-- Components replaced, but not yet inactive. -/
  leaving : List Component := []
  /-- Counts of components not yet listed. -/
  making : List Nat := []

/-- The counts of the components a thread answers for. -/
def Stake.serials (p : Stake) : List Nat := p.owned.map Component.serial

namespace Ledger

/-- Whether a count is that of a component that has been listed. -/
def Settled (l : Ledger) (making : List Nat) (n : Nat) : Prop := n < l.next ∧ n ∉ making

/-- What holds of the stake of one thread. -/
structure Admits (l : Ledger) (making : List Nat) (p : Stake) : Prop where
  seen : ∀ c ∈ p.seen, l.Settled making c.serial
  claimed : ∀ c ∈ p.claimed, l.states.state c.serial = .merging
  within : p.claimed.Sublist p.owned
  spent : ∀ c ∈ p.owned, c ∈ p.claimed ∨ l.states.state c.serial = .inactive
  leaving : ∀ c ∈ p.leaving, c ∈ p.claimed ∧
    ∀ id other, l.roster.get? id = some other → other.serial ≠ c.serial

/-- The counts of all components that are being made. -/
def making (stakes : List Stake) : List Nat := stakes.flatMap Stake.making

/-- The counts of all components that are in somebody's hands, or were set aside. -/
def owned (stakes : List Stake) (aside : List Nat) : List Nat :=
  stakes.flatMap Stake.serials ++ aside

/-- Every component that is merging is in the hands of one thread, or was set aside. -/
structure Balanced (l : Ledger) (stakes : List Stake) (aside : List Nat) : Prop where
  keyed : ∀ id c, l.roster.get? id = some c → c.id = id
  settled : ∀ id c, l.roster.get? id = some c → l.Settled (making stakes) c.serial
  living : ∀ id c, l.roster.get? id = some c → l.states.state c.serial ≠ .inactive
  unwritable : ∀ n, l.states.state n ≠ .writable
  fresh : ∀ n, ¬ l.Settled (making stakes) n → l.states.state n = .readable
  low : ∀ n ∈ making stakes, n < l.next
  nodup : (making stakes).Nodup
  admits : ∀ p ∈ stakes, l.Admits (making stakes) p
  once : (owned stakes aside).Nodup
  held : ∀ n, l.states.state n = .merging → n ∈ owned stakes aside
  free : ∀ n, l.states.state n = .readable → n ∉ owned stakes aside

variable {l : Ledger} {p q : Stake} {stakes others : List Stake} {aside more : List Nat}
  {c : Component}

theorem admits_empty : l.Admits more {} :=
  ⟨by simp, by simp, List.Sublist.refl _, by simp, by simp⟩

/-- Who makes fewer components has no less a stake. -/
theorem Admits.mono (h : l.Admits more p) {fewer : List Nat} (hfewer : fewer ⊆ more) :
    l.Admits fewer p :=
  ⟨fun c hc => ⟨(h.seen c hc).1, fun hmem => (h.seen c hc).2 (hfewer hmem)⟩, h.claimed, h.within,
    h.spent, h.leaving⟩

theorem Balanced.perm (h : l.Balanced stakes aside) (hperm : stakes.Perm others)
    (haside : aside.Perm more) : l.Balanced others more := by
  have hmaking : (making stakes).Perm (making others) := hperm.flatMap_right Stake.making
  have howned : (owned stakes aside).Perm (owned others more) :=
    (hperm.flatMap_right Stake.serials).append haside
  have hiff : ∀ n, l.Settled (making others) n ↔ l.Settled (making stakes) n := fun n => by
    simp only [Settled, hmaking.mem_iff]
  refine ⟨h.keyed, fun id c hc => (hiff _).2 (h.settled id c hc), h.living, h.unwritable,
    fun n hn => h.fresh n (mt (hiff n).2 hn), fun n hn => h.low n (hmaking.mem_iff.2 hn),
    hmaking.nodup_iff.1 h.nodup, fun p hp => ?_, howned.nodup_iff.1 h.once,
    fun n hn => howned.mem_iff.1 (h.held n hn), fun n hn => mt howned.mem_iff.2 (h.free n hn)⟩
  exact (h.admits p (hperm.mem_iff.2 hp)).mono hmaking.symm.subset

/-- A thread without a stake may come and go. -/
theorem balanced_cons_empty : l.Balanced ({} :: stakes) aside ↔ l.Balanced stakes aside := by
  constructor
  · intro h
    exact ⟨h.keyed, h.settled, h.living, h.unwritable, h.fresh, h.low, h.nodup,
      fun p hp => h.admits p (List.mem_cons_of_mem _ hp), h.once, h.held, h.free⟩
  · intro h
    refine ⟨h.keyed, h.settled, h.living, h.unwritable, h.fresh, h.low, h.nodup, fun p hp => ?_,
      h.once, h.held, h.free⟩
    rcases List.mem_cons.1 hp with rfl | hp
    · exact admits_empty
    · exact h.admits p hp

/-- A thread may forget what it has seen and what it was making. -/
theorem balanced_narrow (h : l.Balanced (p :: stakes) aside) (hseen : q.seen ⊆ p.seen)
    (howned : q.owned = p.owned) (hclaimed : q.claimed = p.claimed)
    (hleaving : q.leaving ⊆ p.leaving)
    (hmaking : q.making.Sublist p.making) : l.Balanced (q :: stakes) aside := by
  have hsub : (making (q :: stakes)).Sublist (making (p :: stakes)) := hmaking.append_right _
  have hsettled : ∀ n, l.Settled (making (p :: stakes)) n → l.Settled (making (q :: stakes)) n :=
    fun n hn => ⟨hn.1, mt (hsub.subset ·) hn.2⟩
  have hkeep : owned (q :: stakes) aside = owned (p :: stakes) aside := by
    simp only [owned, List.flatMap_cons, Stake.serials, howned]
  refine ⟨h.keyed, fun id c hc => hsettled _ (h.settled id c hc), h.living, h.unwritable,
    fun n hn => h.fresh n (mt (hsettled n) hn), fun n hn => h.low n (hsub.subset hn),
    h.nodup.sublist hsub, fun r hr => ?_, hkeep ▸ h.once, hkeep ▸ h.held, hkeep ▸ h.free⟩
  rcases List.mem_cons.1 hr with rfl | hr
  · have hp := (h.admits p List.mem_cons_self).mono hsub.subset
    refine ⟨fun c hc => hp.seen c (hseen hc), ?_, ?_, ?_, ?_⟩
    · rw [hclaimed]
      exact hp.claimed
    · rw [howned, hclaimed]
      exact hp.within
    · rw [howned, hclaimed]
      exact hp.spent
    · rw [hclaimed]
      exact fun c hc => hp.leaving c (hleaving hc)
  · exact (h.admits r (List.mem_cons_of_mem _ hr)).mono hsub.subset

/-- A thread may look at components that have been listed. -/
theorem balanced_see (h : l.Balanced (p :: stakes) aside) {seen : List Component}
    (hseen : ∀ c ∈ seen, l.Settled (making (p :: stakes)) c.serial) :
    l.Balanced ({ p with seen } :: stakes) aside := by
  refine ⟨h.keyed, h.settled, h.living, h.unwritable, h.fresh, h.low, h.nodup, fun r hr => ?_,
    h.once, h.held, h.free⟩
  rcases List.mem_cons.1 hr with rfl | hr
  · have hp := h.admits p List.mem_cons_self
    exact ⟨hseen, hp.claimed, hp.within, hp.spent, hp.leaving⟩
  · exact h.admits r (List.mem_cons_of_mem _ hr)

/-- A thread may let go of components it has made inactive. -/
theorem balanced_forget (h : l.Balanced (p :: stakes) aside) (hclaimed : p.claimed = [])
    (hmaking : p.making = []) : l.Balanced stakes aside := by
  have hp := h.admits p List.mem_cons_self
  have hspent : ∀ n ∈ p.serials, l.states.state n = .inactive := by
    intro n hn
    obtain ⟨c, hc, rfl⟩ := List.mem_map.1 hn
    refine (hp.spent c hc).resolve_left ?_
    rw [hclaimed]
    exact List.not_mem_nil
  have hsame : making (p :: stakes) = making stakes := by
    simp only [making, List.flatMap_cons, hmaking, List.nil_append]
  have hkeep : owned (p :: stakes) aside = p.serials ++ owned stakes aside := by
    simp only [owned, List.flatMap_cons, List.append_assoc]
  have honce := h.once
  have hheld := h.held
  have hfree := h.free
  rw [hkeep] at honce hheld hfree
  refine ⟨h.keyed, hsame ▸ h.settled, h.living, h.unwritable, hsame ▸ h.fresh, hsame ▸ h.low,
    hsame ▸ h.nodup, fun r hr => hsame ▸ h.admits r (List.mem_cons_of_mem _ hr),
    (List.nodup_append.1 honce).2.1, fun n hn => ?_, fun n hn => ?_⟩
  · refine (List.mem_append.1 (hheld n hn)).resolve_left fun hmem => ?_
    rw [hspent n hmem] at hn
    contradiction
  · exact fun hmem => hfree n hn (List.mem_append_right _ hmem)

/-- A thread may leave what it answers for set aside. -/
theorem balanced_setAside (h : l.Balanced (p :: stakes) aside) :
    l.Balanced stakes (aside ++ p.serials) := by
  have hnarrow := @balanced_narrow _ p { p with making := [] } _ _ h
    (List.Subset.refl _) rfl rfl (List.Subset.refl _) (List.nil_sublist _)
  have hperm : (owned ({ p with making := [] } :: stakes) aside).Perm
      (owned stakes (aside ++ p.serials)) := by
    simp only [owned, List.flatMap_cons, Stake.serials, List.append_assoc]
    refine List.perm_append_comm.trans ?_
    rw [List.append_assoc]
  exact ⟨h.keyed, hnarrow.settled, h.living, h.unwritable, hnarrow.fresh, hnarrow.low,
    hnarrow.nodup, fun r hr => hnarrow.admits r (List.mem_cons_of_mem _ hr),
    hperm.nodup_iff.1 hnarrow.once, fun n hn => hperm.mem_iff.1 (hnarrow.held n hn),
    fun n hn => mt hperm.mem_iff.2 (hnarrow.free n hn)⟩

/-- The next count may be used up. -/
theorem balanced_raise (h : l.Balanced stakes aside) :
    { l with next := l.next + 1 }.Balanced stakes aside := by
  have hsettled : ∀ n, l.Settled (making stakes) n →
      { l with next := l.next + 1 }.Settled (making stakes) n :=
    fun n hn => ⟨Nat.lt_succ_of_lt hn.1, hn.2⟩
  refine ⟨h.keyed, fun id c hc => hsettled _ (h.settled id c hc), h.living, h.unwritable,
    fun n hn => h.fresh n (mt (hsettled n) hn), fun n hn => Nat.lt_succ_of_lt (h.low n hn),
    h.nodup, fun p hp => ?_, h.once, h.held, h.free⟩
  have hadmits := h.admits p hp
  exact ⟨fun c hc => hsettled _ (hadmits.seen c hc), hadmits.claimed, hadmits.within,
    hadmits.spent, hadmits.leaving⟩

/-- The next count may be taken. -/
theorem balanced_number (h : l.Balanced (p :: stakes) aside) :
    { l with next := l.next + 1 }.Balanced ({ p with making := l.next :: p.making } :: stakes)
      aside := by
  have hmaking : making ({ p with making := l.next :: p.making } :: stakes) =
      l.next :: making (p :: stakes) := rfl
  have hsettled : ∀ n, { l with next := l.next + 1 }.Settled (l.next :: making (p :: stakes)) n ↔
      l.Settled (making (p :: stakes)) n := by
    intro n
    simp only [Settled, List.mem_cons, not_or]
    constructor
    · rintro ⟨hlt, hne, hnew⟩
      exact ⟨by omega, hnew⟩
    · rintro ⟨hlt, hnew⟩
      exact ⟨by omega, by omega, hnew⟩
  refine ⟨h.keyed, ?_, h.living, h.unwritable, ?_, ?_, ?_, ?_, h.once, h.held, h.free⟩
  · rw [hmaking]
    exact fun id c hc => (hsettled _).2 (h.settled id c hc)
  · rw [hmaking]
    exact fun n hn => h.fresh n (mt (hsettled n).2 hn)
  · rw [hmaking]
    intro n hn
    rcases List.mem_cons.1 hn with rfl | hn
    · exact Nat.lt_succ_self _
    · exact Nat.lt_succ_of_lt (h.low n hn)
  · rw [hmaking]
    exact List.nodup_cons.2 ⟨fun hmem => Nat.lt_irrefl _ (h.low _ hmem), h.nodup⟩
  · rw [hmaking]
    intro r hr
    have hwide : ∀ r : Stake, l.Admits (making (p :: stakes)) r →
        { l with next := l.next + 1 }.Admits (l.next :: making (p :: stakes)) r := fun r hadmits =>
      ⟨fun c hc => (hsettled _).2 (hadmits.seen c hc), hadmits.claimed, hadmits.within,
        hadmits.spent, hadmits.leaving⟩
    rcases List.mem_cons.1 hr with rfl | hr
    · have hp := hwide p (h.admits p List.mem_cons_self)
      exact ⟨hp.seen, hp.claimed, hp.within, hp.spent, hp.leaving⟩
    · exact hwide r (h.admits r (List.mem_cons_of_mem _ hr))

theorem not_mem_serials (h : l.Balanced (p :: stakes) aside) (hc : c ∈ p.owned) {r : Stake}
    (hr : r ∈ stakes) : c.serial ∉ r.serials := by
  intro hmem
  have honce := h.once
  rw [owned, List.flatMap_cons, List.append_assoc] at honce
  refine (List.nodup_append.1 honce).2.2 c.serial (List.mem_map_of_mem hc) c.serial ?_ rfl
  exact List.mem_append_left _ (List.mem_flatMap.2 ⟨r, hr, hmem⟩)

/-- A stake does not depend on the states of components in other hands. -/
theorem admits_set (h : l.Admits more p) (state : State) (hfree : c.serial ∉ p.serials) :
    { l with states := l.states.set c.serial state }.Admits more p := by
  have hother : ∀ {other : Component}, other ∈ p.owned → other.serial ≠ c.serial := by
    intro other hmem heq
    exact hfree (heq ▸ List.mem_map_of_mem hmem)
  refine ⟨h.seen, fun other hmem => ?_, h.within, fun other hmem => ?_, h.leaving⟩
  · rw [Lifecycle.state_set, if_neg (hother (h.within.subset hmem))]
    exact h.claimed other hmem
  · rw [Lifecycle.state_set, if_neg (hother hmem)]
    exact h.spent other hmem

/-- A claimed component has been listed. -/
theorem settled_of_merging (h : l.Balanced stakes aside) {n : Nat}
    (hstate : l.states.state n = .merging) : l.Settled (making stakes) n := by
  by_contra hnew
  rw [h.fresh n hnew] at hstate
  contradiction

/-- The state of a listed component may be changed by one who answers for it, before or after: what
the others have at stake is not touched, and the counts but this one stay where they were. -/
theorem balanced_set (h : l.Balanced (p :: stakes) aside) {state : State}
    (hmaking : q.making = p.making) (hsettled : l.Settled (making (p :: stakes)) c.serial)
    (hwritable : state ≠ .writable)
    (hgone : state = .inactive →
      ∀ id other, l.roster.get? id = some other → other.serial ≠ c.serial)
    (hothers : ∀ r ∈ stakes, c.serial ∉ r.serials)
    (hq : { l with states := l.states.set c.serial state }.Admits (making (p :: stakes)) q)
    (honce : (owned (q :: stakes) aside).Nodup)
    (hrest : ∀ n ≠ c.serial, n ∈ owned (q :: stakes) aside ↔ n ∈ owned (p :: stakes) aside)
    (hheld : state = .merging → c.serial ∈ owned (q :: stakes) aside)
    (hfree : state = .readable → c.serial ∉ owned (q :: stakes) aside) :
    { l with states := l.states.set c.serial state }.Balanced (q :: stakes) aside := by
  have hsame : making (q :: stakes) = making (p :: stakes) := by
    simp only [making, List.flatMap_cons, hmaking]
  refine ⟨h.keyed, hsame ▸ h.settled, fun id other hother hnow => ?_, fun n => ?_, fun n hn => ?_,
    hsame ▸ h.low, hsame ▸ h.nodup, fun r hr => ?_, honce, fun n hn => ?_, fun n hn => ?_⟩
  · rw [Lifecycle.state_set] at hnow
    split at hnow
    · exact hgone hnow id other hother ‹_›
    · exact h.living id other hother hnow
  · rw [Lifecycle.state_set]
    split
    · exact hwritable
    · exact h.unwritable n
  · rw [hsame] at hn
    rw [Lifecycle.state_set, if_neg]
    · exact h.fresh n hn
    · rintro rfl
      exact hn hsettled
  · rw [hsame]
    rcases List.mem_cons.1 hr with rfl | hr
    · exact hq
    · exact admits_set (h.admits r (List.mem_cons_of_mem _ hr)) state (hothers r hr)
  · rw [Lifecycle.state_set] at hn
    split at hn
    · exact ‹n = c.serial› ▸ hheld hn
    · exact (hrest n ‹_›).2 (h.held n hn)
  · rw [Lifecycle.state_set] at hn
    split at hn
    · exact ‹n = c.serial› ▸ hfree hn
    · exact mt (hrest n ‹_›).1 (h.free n hn)

/-- A readable component that has been listed may be claimed. -/
theorem balanced_claim (h : l.Balanced (p :: stakes) aside) (hseen : p.seen = c :: q.seen)
    (howned : q.owned = p.owned ++ [c]) (hclaimed : q.claimed = p.claimed ++ [c])
    (hleaving : q.leaving = []) (hmaking : q.making = p.making)
    (hstate : l.states.state c.serial = .readable) :
    { l with states := l.states.set c.serial .merging }.Balanced (q :: stakes) aside := by
  have hp := h.admits p List.mem_cons_self
  have hmore : (owned (q :: stakes) aside).Perm (c.serial :: owned (p :: stakes) aside) := by
    simp only [owned, List.flatMap_cons, Stake.serials, howned, List.map_append, List.map_cons,
      List.map_nil, List.append_assoc, List.singleton_append]
    exact List.perm_middle
  have hfree := h.free _ hstate
  have hapart : ∀ r ∈ p :: stakes, c.serial ∉ r.serials := by
    intro r hr hmem
    exact hfree (List.mem_append_left _ (List.mem_flatMap.2 ⟨r, hr, hmem⟩))
  have hset := admits_set hp .merging (hapart p List.mem_cons_self)
  refine balanced_set h hmaking (hp.seen c (hseen ▸ List.mem_cons_self)) (by decide) (by simp)
    (fun r hr => hapart r (List.mem_cons_of_mem _ hr)) ⟨fun d hd => ?_, fun d hd => ?_, ?_,
      fun d hd => ?_, by simp [hleaving]⟩ (hmore.nodup_iff.2 (List.nodup_cons.2 ⟨hfree, h.once⟩))
    (fun n hn => ?_) (fun _ => hmore.mem_iff.2 List.mem_cons_self) (by simp)
  · exact hp.seen d (hseen ▸ List.mem_cons_of_mem _ hd)
  · rw [hclaimed] at hd
    rcases List.mem_append.1 hd with hd | hd
    · exact hset.claimed d hd
    · rw [List.mem_singleton.1 hd, Lifecycle.state_set, if_pos rfl]
  · rw [howned, hclaimed]
    exact hset.within.append_right _
  · rw [howned] at hd
    rw [hclaimed]
    rcases List.mem_append.1 hd with hd | hd
    · exact (hset.spent d hd).imp (List.mem_append_left _) id
    · exact .inl (List.mem_append_right _ hd)
  · rw [hmore.mem_iff, List.mem_cons]
    exact or_iff_right hn

/-- A claimed component may be handed back. -/
theorem balanced_release (h : l.Balanced (p :: stakes) aside) (howned : p.owned = c :: q.owned)
    (hclaimed : p.claimed = c :: q.claimed) (hleaving : q.leaving = [])
    (hseen : q.seen = []) (hmaking : q.making = p.making) :
    { l with states := l.states.set c.serial .readable }.Balanced (q :: stakes) aside := by
  have hp := h.admits p List.mem_cons_self
  have hcons : owned (p :: stakes) aside = c.serial :: owned (q :: stakes) aside := by
    simp only [owned, List.flatMap_cons, Stake.serials, howned, List.map_cons, List.cons_append]
  have hstate : l.states.state c.serial = .merging :=
    hp.claimed c (hclaimed ▸ List.mem_cons_self)
  have honce := h.once
  rw [hcons, List.nodup_cons] at honce
  have hapart : c.serial ∉ q.serials := fun hmem =>
    honce.1 (List.mem_append_left _ (List.mem_flatMap.2 ⟨q, List.mem_cons_self, hmem⟩))
  have hwithin := hp.within
  rw [howned, hclaimed] at hwithin
  refine balanced_set h hmaking (settled_of_merging h hstate) (by decide) (by simp)
    (fun r hr => not_mem_serials h (howned ▸ List.mem_cons_self) hr)
    (admits_set ⟨by simp [hseen], fun d hd => ?_, List.Sublist.of_cons_cons hwithin,
      fun d hd => ?_, by simp [hleaving]⟩ _ hapart) honce.2 (fun n hn => ?_) (by simp)
    fun _ => honce.1
  · exact hp.claimed d (hclaimed ▸ List.mem_cons_of_mem _ hd)
  · have hspent := hp.spent d (howned ▸ List.mem_cons_of_mem _ hd)
    rw [hclaimed, List.mem_cons] at hspent
    rcases hspent with (rfl | hin) | hinactive
    · exact absurd (List.mem_map_of_mem hd) hapart
    · exact .inl hin
    · exact .inr hinactive
  · rw [hcons, List.mem_cons]
    exact (or_iff_right hn).symm

/-- A component that was replaced may be made inactive. -/
theorem balanced_retire (h : l.Balanced (p :: stakes) aside) (howned : q.owned = p.owned)
    (hclaimed : p.claimed = c :: q.claimed) (hleaving : p.leaving = c :: q.leaving)
    (hsub : q.leaving ⊆ q.claimed) (hseen : q.seen = []) (hmaking : q.making = p.making) :
    { l with states := l.states.set c.serial .inactive }.Balanced (q :: stakes) aside := by
  have hp := h.admits p List.mem_cons_self
  have hkeep : owned (q :: stakes) aside = owned (p :: stakes) aside := by
    simp only [owned, List.flatMap_cons, Stake.serials, howned]
  have hstate : l.states.state c.serial = .merging :=
    hp.claimed c (hclaimed ▸ List.mem_cons_self)
  have hc : c ∈ p.owned := hp.within.subset (hclaimed ▸ List.mem_cons_self)
  have hwithin := hp.within
  rw [hclaimed] at hwithin
  have hserials : (p.owned.map Component.serial).Nodup := by
    have honce := h.once
    rw [owned, List.flatMap_cons, List.append_assoc] at honce
    exact (List.nodup_append.1 honce).1
  have hothers : ∀ d ∈ q.claimed, d.serial ≠ c.serial := by
    have hnodup := hserials.sublist (hwithin.map Component.serial)
    rw [List.map_cons, List.nodup_cons] at hnodup
    intro d hd heq
    exact hnodup.1 (heq ▸ List.mem_map_of_mem hd)
  refine balanced_set h hmaking (settled_of_merging h hstate) (by decide)
    (fun _ => (hp.leaving c (hleaving ▸ List.mem_cons_self)).2)
    (fun r hr => not_mem_serials h hc hr) ⟨by simp [hseen], fun d hd => ?_, ?_, fun d hd => ?_,
      fun d hd => ⟨hsub hd, (hp.leaving d (hleaving ▸ List.mem_cons_of_mem _ hd)).2⟩⟩
    (hkeep ▸ h.once) (fun n _ => by rw [hkeep]) (by simp) (by simp)
  · rw [Lifecycle.state_set, if_neg (hothers d hd)]
    exact hp.claimed d (hclaimed ▸ List.mem_cons_of_mem _ hd)
  · rw [howned]
    exact (List.sublist_cons_self c _).trans hwithin
  · rw [Lifecycle.state_set]
    split
    · exact .inr rfl
    · rename_i hne
      have hspent := hp.spent d (howned ▸ hd)
      rw [hclaimed, List.mem_cons] at hspent
      rcases hspent with (rfl | hin) | hinactive
      · exact absurd rfl hne
      · exact .inl hin
      · exact .inr hinactive

/-- A component that was being made may be listed, while components its maker has claimed go. -/
theorem balanced_list {roster : Roster} {result : Component} {members : List Component}
    (h : l.Balanced
      ({ owned := members, claimed := members, making := [result.serial] } :: stakes) aside)
    (hroster : ∀ id other, roster.get? id = some other →
      other = result ∧ id = result.id ∨ l.roster.get? id = some other)
    (hgone : ∀ c ∈ members, ∀ id other, roster.get? id = some other → other ≠ result →
      other.serial ≠ c.serial) :
    { l with roster }.Balanced
      ({ owned := members, claimed := members, leaving := members } :: stakes) aside := by
  have hself := h.admits _ List.mem_cons_self
  have hless : making ({ owned := members, claimed := members, making := [result.serial] } ::
      stakes) = result.serial :: making stakes := rfl
  have hlow := h.low result.serial (hless ▸ List.mem_cons_self)
  have hnodup := h.nodup
  rw [hless, List.nodup_cons] at hnodup
  have hreadable : l.states.state result.serial = .readable :=
    h.fresh _ fun hsettled => hsettled.2 (hless ▸ List.mem_cons_self)
  have hsettled : ∀ n, l.Settled (result.serial :: making stakes) n →
      l.Settled (making stakes) n :=
    fun n hn => ⟨hn.1, fun hmem => hn.2 (List.mem_cons_of_mem _ hmem)⟩
  have hapart : ∀ c : Component, l.states.state c.serial = .merging → result.serial ≠ c.serial := by
    intro c hc heq
    rw [← heq, hreadable] at hc
    contradiction
  refine ⟨fun id other hother => ?_, fun id other hother => ?_, fun id other hother => ?_,
    h.unwritable, fun n hn => h.fresh n (mt (hsettled n) hn),
    fun n hn => h.low n (List.mem_cons_of_mem _ hn), hnodup.2, fun r hr => ?_, h.once, h.held,
    h.free⟩
  · rcases hroster id other hother with ⟨rfl, rfl⟩ | hold
    · rfl
    · exact h.keyed id other hold
  · rcases hroster id other hother with ⟨rfl, rfl⟩ | hold
    · exact ⟨hlow, hnodup.1⟩
    · exact hsettled _ (h.settled id other hold)
  · rcases hroster id other hother with ⟨rfl, rfl⟩ | hold
    · rw [hreadable]
      decide
    · exact h.living id other hold
  · rcases List.mem_cons.1 hr with rfl | hr
    · refine ⟨by simp, hself.claimed, hself.within, hself.spent, fun c hc => ⟨hc, ?_⟩⟩
      intro id other hother
      by_cases heq : other = result
      · exact heq ▸ hapart c (hself.claimed c hc)
      · exact hgone c hc id other hother heq
    · have hadmits := h.admits r (List.mem_cons_of_mem _ hr)
      have hmono := hadmits.mono (List.subset_cons_self result.serial (making stakes))
      refine ⟨hmono.seen, hmono.claimed, hmono.within, hmono.spent, fun c hc => ?_⟩
      obtain ⟨hin, hout⟩ := hadmits.leaving c hc
      refine ⟨hin, fun id other hother => ?_⟩
      rcases hroster id other hother with ⟨rfl, rfl⟩ | hold
      · exact hapart c (hadmits.claimed c hin)
      · exact hout id other hold

end Ledger

end Strata
