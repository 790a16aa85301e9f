import Darwin.Vm.Object.Basic
import Mathlib.Algebra.Order.BigOperators.Group.Finset
import Mathlib.Tactic.Ring

/-!
# `vm_object_collapse` keeps what objects show

A graph of shadows is well formed if its links end in objects that exist, if it has no cycle, and if
every reference count is the number of references from entries and from shadow links.  A collapse
keeps it so.  It also keeps what the search along the chain finds at every offset of every object,
provided that no chain passes the object behind its end: pages of the backing object that lie behind
the end of the object are freed.

## Main results

* `vmObjectCollapse_shows` - it ends, and keeps the views and the reference counts
* `vmObjectCollapse_cuts` - a view through the end of the object
-/

namespace Darwin.Vm.Object

open Option Finset
open Function (update_of_ne update_self)

variable {I P D : Type*} {has : P → ℕ → Bool} {g g' : Objects I P D} {i s object backing : I}
  {offset : ℕ} {found : Found P D}

/-! ## Pages -/

theorem vmPageLookup_cons (p : ℕ × D) (memq : List (ℕ × D)) (offset : ℕ) :
    vmPageLookup (p :: memq) offset = if p.1 = offset then some p.2
      else vmPageLookup memq offset := by
  rw [vmPageLookup, List.find?_cons]
  split_ifs with here
  · simp [here]
  · have other : (p.1 == offset) = false := by simpa using here
    rw [other]
    rfl

theorem vmPageLookup_concat (memq : List (ℕ × D)) (p : ℕ × D) (offset : ℕ) :
    vmPageLookup (memq ++ [p]) offset =
      (vmPageLookup memq offset).or (if p.1 = offset then some p.2 else none) := by
  induction memq with
  | nil =>
    rw [List.nil_append, vmPageLookup_cons]
    rfl
  | cons q memq ih =>
    rw [List.cons_append, vmPageLookup_cons, vmPageLookup_cons, ih]
    split_ifs <;> rfl

/-- The pages of the object after the collapse: its own, and behind them those of the backing object
that lie inside of it. -/
theorem vmPageLookup_moveLoop (backingOffset size : ℕ) (pages memq : List (ℕ × D)) (offset : ℕ) :
    vmPageLookup (moveLoop backingOffset size pages memq) offset = (vmPageLookup memq offset).or
        (if offset < size then vmPageLookup pages (offset + backingOffset) else none) := by
  induction pages generalizing memq with
  | nil =>
    rw [moveLoop]
    cases vmPageLookup memq offset <;> simp [vmPageLookup]
  | cons p rest ih =>
    rw [moveLoop]
    by_cases outside : p.1 < backingOffset ∨ size ≤ p.1 - backingOffset
    · rw [if_pos outside, ih]
      by_cases inside : offset < size
      · rw [if_pos inside, if_pos inside, vmPageLookup_cons, if_neg (by omega)]
      · rw [if_neg inside, if_neg inside]
    rw [if_neg outside]
    by_cases hidden : (vmPageLookup memq (p.1 - backingOffset)).isSome
    · rw [if_pos hidden, ih]
      by_cases inside : offset < size
      · rw [if_pos inside, if_pos inside, vmPageLookup_cons]
        split_ifs with here
        · -- the object has a page there
          obtain ⟨q, own⟩ := isSome_iff_exists.mp hidden
          obtain rfl : offset = p.1 - backingOffset := by omega
          rw [own, some_or, some_or]
        · rfl
      · rw [if_neg inside, if_neg inside]
    · rw [if_neg hidden, ih, vmPageLookup_concat, Option.or_assoc]
      by_cases inside : offset < size
      · rw [if_pos inside, if_pos inside, vmPageLookup_cons]
        by_cases here : p.1 = offset + backingOffset
        · rw [if_pos here, if_pos (by dsimp only; omega), some_or]
        · rw [if_neg here, if_neg (by dsimp only; omega), none_or]
      · rw [if_neg inside, if_neg inside, if_neg (by dsimp only; omega), none_or]

theorem moveLoop_nodup (backingOffset size : ℕ) (pages memq : List (ℕ × D))
    (distinct : (memq.map Prod.fst).Nodup) :
    ((moveLoop backingOffset size pages memq).map Prod.fst).Nodup := by
  induction pages generalizing memq with
  | nil => exact distinct
  | cons p rest ih =>
    rw [moveLoop]
    split_ifs with outside hidden
    · exact ih memq distinct
    · exact ih memq distinct
    refine ih _ ?_
    rw [List.map_append, List.map_singleton, List.nodup_append]
    refine ⟨distinct, List.nodup_singleton _, ?_⟩
    rintro x inside y last rfl
    obtain rfl := List.mem_singleton.mp last
    obtain ⟨q, member, same⟩ := List.mem_map.mp inside
    refine hidden ?_
    rw [vmPageLookup, isSome_map, List.find?_isSome]
    exact ⟨q, member, by simpa using same⟩

/-! ## The search -/

/-- What the search finds at an object. -/
theorem shows_iff :
    Shows has g i offset found ↔
      match (g.object i).hit has offset, (g.object i).shadow with
      | some own, _ => found = own
      | none, some s => Shows has g s ((offset + (g.object i).shadowOffset) % 2 ^ 32) found
      | none, none => found = .zero := by
  constructor
  · intro shows_
    cases shows_ with
    | here hit => rw [hit]
    | shadow missing link shows_ =>
      rw [missing, link]
      exact shows_
    | zero missing bottom => rw [missing, bottom]
  · cases hit : (g.object i).hit has offset with
    | some own =>
      rintro rfl
      exact .here hit
    | none =>
      cases link : (g.object i).shadow with
      | some s => exact .shadow hit link
      | none =>
        rintro rfl
        exact .zero hit link

/-- The search finds one thing. -/
theorem Shows.unique {found' : Found P D} (first : Shows has g i offset found)
    (second : Shows has g i offset found') : found = found' := by
  induction first with
  | here hit =>
    rw [shows_iff, hit] at second
    exact second.symm
  | shadow missing link _ ih =>
    rw [shows_iff, missing, link] at second
    exact ih second
  | zero missing bottom =>
    rw [shows_iff, missing, bottom] at second
    exact second.symm

/-! ## Well-formed graphs -/

/-- The number of shadow links to an object. -/
def Objects.links [DecidableEq I] (g : Objects I P D) (i : I) : ℤ :=
  ∑ j ∈ g.live, if (g.object j).shadow = some i then 1 else 0

/-- The links end in objects that exist and make no cycle, the reference counts count the links and
the references of entries, and an object has one page at an offset. -/
structure Objects.Wf [DecidableEq I] (g : Objects I P D) (entryRefs rank : I → ℕ) : Prop where
  closed : ∀ i ∈ g.live, ∀ s, (g.object i).shadow = some s → s ∈ g.live
  acyclic : ∀ i ∈ g.live, ∀ s, (g.object i).shadow = some s → rank s < rank i
  refs : ∀ i ∈ g.live, (g.object i).refCount = entryRefs i + g.links i
  pages : ∀ i ∈ g.live, ((g.object i).memq.map Prod.fst).Nodup

/-- What a chain passes: it arrives at an object at an offset. -/
inductive Arrives (g : Objects I P D) : I → ℕ → I → ℕ → Prop
  | here (i : I) (offset : ℕ) : Arrives g i offset i offset
  | shadow {i s t : I} {offset offset' : ℕ} (link : (g.object i).shadow = some s)
      (arrives : Arrives g s ((offset + (g.object i).shadowOffset) % 2 ^ 32) t offset') :
      Arrives g i offset t offset'

/-- No chain passes the object behind its end, and the chain of the object does not wrap around. -/
structure Objects.Inside (g : Objects I P D) (object : I) : Prop where
  above : ∀ i ∈ g.live, ∀ offset < (g.object i).size, ∀ offset',
    Arrives g i offset object offset' → offset' < (g.object object).size
  below : ∀ offset < (g.object object).size, ∀ t offset' s,
    Arrives g object offset t offset' → (g.object t).shadow = some s →
      offset' + (g.object t).shadowOffset < 2 ^ 32

section Wf

variable [DecidableEq I] {entryRefs rank : I → ℕ}

theorem Objects.Wf.arrives_rank (wf : g.Wf entryRefs rank) {t : I} {offset' : ℕ}
    (arrives : Arrives g i offset t offset') (live : i ∈ g.live) : rank t ≤ rank i := by
  induction arrives with
  | here => exact le_rfl
  | shadow link _ ih =>
    exact (ih (wf.closed _ live _ link)).trans (wf.acyclic _ live _ link).le

end Wf

/-! ## One turn -/

/-- What a turn does to the views: the object has what it and the backing object had, and has the
shadow of the backing object. -/
structure Merged (has : P → ℕ → Bool) (g g' : Objects I P D) (object backing : I) : Prop where
  live : g'.live ⊆ g.live
  size : ∀ i, (g'.object i).size = (g.object i).size
  link : (g.object object).shadow = some backing
  others : ∀ i ∈ g'.live, i ≠ object → (g'.object i).hit has = (g.object i).hit has ∧
    (g'.object i).shadow = (g.object i).shadow ∧
    (g'.object i).shadowOffset = (g.object i).shadowOffset
  shadow : (g'.object object).shadow = (g.object backing).shadow
  shadowOffset : (g'.object object).shadowOffset =
    ((g.object object).shadowOffset + (g.object backing).shadowOffset) % 2 ^ 32
  hit : ∀ offset < (g.object object).size, offset + (g.object object).shadowOffset < 2 ^ 32 →
    (g'.object object).hit has offset = ((g.object object).hit has offset).or
      ((g.object backing).hit has (offset + (g.object object).shadowOffset))

section Views

variable [DecidableEq I] {entryRefs rank : I → ℕ}

omit [DecidableEq I] in
theorem Objects.Inside.reaches (inside : g.Inside object)
    (link : (g.object object).shadow = some backing) (low : offset < (g.object object).size) :
    offset + (g.object object).shadowOffset < 2 ^ 32 :=
  inside.below offset low object offset backing (.here _ _) link

/-- The offsets of two links add up. -/
theorem shadowOffset_add (offset a b : ℕ) :
    (offset + (a + b) % 2 ^ 32) % 2 ^ 32 = ((offset + a) % 2 ^ 32 + b) % 2 ^ 32 := by
  omega

variable (merged : Merged has g g' object backing)

include merged

/-- A turn changes no view from which the object is not passed behind its end. -/
theorem Merged.shows (wf : g.Wf entryRefs rank) (wf' : g'.Wf entryRefs rank)
    (inside : g.Inside object) (live : object ∈ g.live) {i : I} (live' : i ∈ g'.live)
    (good : ∀ offset', Arrives g i offset object offset' → offset' < (g.object object).size) :
    Shows has g' i offset found ↔ Shows has g i offset found := by
  induction rank_eq : rank i using Nat.strong_induction_on generalizing i offset with
  | _ n ih =>
  subst rank_eq
  by_cases here : i = object
  · subst here
    have low := good offset (.here _ _)
    have reach := inside.reaches merged.link low
    have backingLive := wf.closed i live backing merged.link
    rw [shows_iff, merged.hit offset low reach, merged.shadow, merged.shadowOffset,
      shadowOffset_add, Nat.mod_eq_of_lt reach]
    refine Iff.trans ?_ shows_iff.symm
    cases own : (g.object i).hit has offset with
    | some own => exact Iff.rfl
    | none =>
      rw [merged.link, none_or]
      rw [Nat.mod_eq_of_lt reach]
      refine Iff.trans ?_ shows_iff.symm
      cases (g.object backing).hit has (offset + (g.object i).shadowOffset) with
      | some theirs => exact Iff.rfl
      | none =>
        cases below : (g.object backing).shadow with
        | none => exact Iff.rfl
        | some s =>
          -- further down nothing has changed
          have lower := (wf.acyclic backing backingLive s below).trans
            (wf.acyclic i live backing merged.link)
          refine ih (rank s) lower (wf'.closed i live' s (merged.shadow.trans below)) ?_ rfl
          intro offset' arrives
          have := wf.arrives_rank arrives (wf.closed backing backingLive s below)
          omega
  · obtain ⟨hit, shadow, shadowOffset⟩ := merged.others i live' here
    rw [shows_iff, hit, shadow, shadowOffset]
    refine Iff.trans ?_ shows_iff.symm
    cases (g.object i).hit has offset with
    | some own => exact Iff.rfl
    | none =>
      cases link : (g.object i).shadow with
      | none => exact Iff.rfl
      | some s =>
        refine ih (rank s) (wf.acyclic i (merged.live live') s link)
          (wf'.closed i live' s (shadow.trans link)) (fun offset' arrives => ?_) rfl
        exact good offset' (.shadow link arrives)

/-- A chain that arrives at the object after a turn did so before. -/
theorem Merged.arrives (wf' : g'.Wf entryRefs rank) {i : I} {offset' : ℕ}
    (arrives : Arrives g' i offset object offset') (live' : i ∈ g'.live) :
    Arrives g i offset object offset' := by
  generalize goal : object = t at arrives
  induction arrives with
  | here i offset =>
    exact .here _ _
  | @shadow i s t offset offset' link arrives ih =>
    subst goal
    have next := wf'.closed i live' s link
    by_cases here : i = object
    · subst here
      have := wf'.acyclic i live' s link
      have := wf'.arrives_rank arrives next
      omega
    · obtain ⟨-, shadow, shadowOffset⟩ := merged.others i live' here
      rw [shadow] at link
      have passed := ih next rfl
      rw [shadowOffset] at passed
      exact .shadow link passed

/-- Below the object nothing has changed. -/
theorem Merged.arrives_below (wf' : g'.Wf entryRefs rank) {i t : I} {offset' : ℕ}
    (arrives : Arrives g' i offset t offset') (live' : i ∈ g'.live) (lower : rank i < rank object) :
    Arrives g i offset t offset' ∧ t ∈ g'.live ∧ t ≠ object := by
  induction arrives with
  | here i offset =>
    refine ⟨.here _ _, live', ?_⟩
    rintro rfl
    exact absurd lower (lt_irrefl _)
  | @shadow i s t offset offset' link arrives ih =>
    have other : i ≠ object := by
      rintro rfl
      exact absurd lower (lt_irrefl _)
    obtain ⟨-, shadow, shadowOffset⟩ := merged.others i live' other
    obtain ⟨passed, rest⟩ := ih (wf'.closed i live' s link)
      ((wf'.acyclic i live' s link).trans lower)
    rw [shadow] at link
    rw [shadowOffset] at passed
    exact ⟨.shadow link passed, rest⟩

theorem Merged.inside (wf : g.Wf entryRefs rank) (wf' : g'.Wf entryRefs rank)
    (inside : g.Inside object) (live : object ∈ g.live) (live' : object ∈ g'.live) :
    g'.Inside object where
  above i member offset low offset' arrives := by
    rw [merged.size] at low ⊢
    exact inside.above i (merged.live member) offset low offset' (merged.arrives wf' arrives member)
  below offset low t offset' s arrives link := by
    rw [merged.size] at low
    have reach := inside.reaches merged.link low
    -- the chain passes the backing object first
    have first : Arrives g object offset backing (offset + (g.object object).shadowOffset) := by
      refine .shadow merged.link ?_
      rw [Nat.mod_eq_of_lt reach]
      exact .here _ _
    cases arrives with
    | here =>
      rw [merged.shadow] at link
      have further := inside.below offset low backing _ s first link
      rw [merged.shadowOffset, Nat.mod_eq_of_lt (by omega)]
      omega
    | @shadow _ r _ _ _ next arrives =>
      have down := wf'.closed object live' r next
      have lower := wf'.acyclic object live' r next
      obtain ⟨passed, member, other⟩ := merged.arrives_below wf' arrives down lower
      obtain ⟨-, shadow, shadowOffset⟩ := merged.others t member other
      rw [shadow] at link
      rw [shadowOffset]
      refine inside.below offset low t offset' s (.shadow merged.link ?_) link
      rw [merged.shadow] at next
      refine .shadow next ?_
      rw [merged.shadowOffset, shadowOffset_add] at passed
      exact passed

end Views

/-! ## The two kinds of turns -/

section Turns

variable [DecidableEq I] {entryRefs rank : I → ℕ}

/-- A sum over the objects, with the object and the backing object apart. -/
theorem sum_split {live : Finset I} (first : object ∈ live) (second : backing ∈ live)
    (other : backing ≠ object) (f : I → ℤ) :
    ∑ j ∈ live, f j = f object + (f backing + ∑ j ∈ (live.erase object).erase backing, f j) := by
  rw [add_sum_erase _ f (mem_erase.mpr ⟨other, second⟩),
    add_sum_erase _ f first]

variable (wf : g.Wf entryRefs rank) (live : object ∈ g.live)
  (link : (g.object object).shadow = some backing)

include wf live link

theorem Objects.Wf.backing_ne : backing ≠ object := by
  rintro rfl
  exact absurd (wf.acyclic backing live backing link) (lt_irrefl _)

/-- A backing object with one reference is referred to by the object only. -/
theorem Objects.Wf.only_link (single : (g.object backing).refCount = 1) :
    entryRefs backing = 0 ∧
      ∀ i ∈ g.live, (g.object i).shadow = some backing → i = object := by
  have member := wf.closed object live backing link
  have refs := wf.refs backing member
  rw [single, Objects.links, ← add_sum_erase _ _ live, if_pos link] at refs
  have nonneg : ∀ j ∈ g.live.erase object,
      (0 : ℤ) ≤ if (g.object j).shadow = some backing then 1 else 0 := by
    intro j _
    split_ifs <;> decide
  have total := sum_nonneg nonneg
  refine ⟨by omega, fun i inside also => ?_⟩
  by_contra other
  have one := single_le_sum nonneg (mem_erase.mpr ⟨other, inside⟩)
  rw [if_pos also] at one
  omega

omit wf live link

/-- What the collapse does to the fields. -/
theorem absorb_other (other : i ≠ object) : (absorb g object backing).object i = g.object i :=
  update_of_ne other ..

theorem absorb_merged (link : (g.object object).shadow = some backing)
    (noPager : (g.object object).pager = none) :
    Merged has g (absorb g object backing) object backing where
  live := erase_subset _ _
  size i := by
    by_cases here : i = object
    · subst here
      simp [absorb]
    · rw [absorb_other here]
  link := link
  others i _ other := by
    rw [absorb_other other]
    exact ⟨rfl, rfl, rfl⟩
  shadow := by simp [absorb]
  shadowOffset := by simp [absorb]
  hit offset low reach := by
    have mod : (offset + ((g.object backing).pagingOffset + (g.object object).shadowOffset) %
        2 ^ 32) % 2 ^ 32 =
        (offset + (g.object object).shadowOffset + (g.object backing).pagingOffset) % 2 ^ 32 := by
      omega
    simp only [absorb, update_self, VmObject.hit, vmPageLookup_moveLoop, if_pos low,
      noPager, bind_none, mod]
    cases vmPageLookup (g.object object).memq offset with
    | some p => rfl
    | none => rfl

theorem absorb_wf (wf : g.Wf entryRefs rank) (live : object ∈ g.live)
    (link : (g.object object).shadow = some backing)
    (single : (g.object backing).refCount = 1) :
    (absorb g object backing).Wf entryRefs rank := by
  obtain ⟨-, only⟩ := wf.only_link live link single
  have member := wf.closed object live backing link
  have distinct := wf.backing_ne live link
  have shadow (j : I) : ((absorb g object backing).object j).shadow =
      if j = object then (g.object backing).shadow else (g.object j).shadow := by
    split_ifs with here
    · subst here
      simp [absorb]
    · rw [absorb_other here]
  have mem {i : I} (inside : i ∈ (absorb g object backing).live) : i ≠ backing ∧ i ∈ g.live :=
    mem_erase.mp inside
  refine ⟨fun i inside s below => ?_, fun i inside s below => ?_, fun i inside => ?_,
    fun i inside => ?_⟩
  · obtain ⟨-, old⟩ := mem inside
    rw [shadow] at below
    refine mem_erase.mpr ?_
    split_ifs at below with here
    · refine ⟨?_, wf.closed backing member s below⟩
      rintro rfl
      exact absurd (wf.acyclic s member s below) (lt_irrefl _)
    · refine ⟨?_, wf.closed i old s below⟩
      rintro rfl
      exact here (only i old below)
  · obtain ⟨-, old⟩ := mem inside
    rw [shadow] at below
    split_ifs at below with here
    · subst here
      exact (wf.acyclic backing member s below).trans (wf.acyclic i live backing link)
    · exact wf.acyclic i old s below
  · obtain ⟨other, old⟩ := mem inside
    have refs := wf.refs i old
    have count : (absorb g object backing).links i = g.links i := by
      have first : object ∈ g.live.erase backing := mem_erase.mpr ⟨distinct.symm, live⟩
      rw [Objects.links, Objects.links, sum_split live member distinct, link]
      show ∑ j ∈ g.live.erase backing, _ = _
      rw [← add_sum_erase _ _ first, shadow, if_pos rfl, erase_right_comm,
        if_neg (fun same => other (some.inj same).symm), zero_add]
      congr 1
      refine sum_congr rfl fun j inside => ?_
      have := (mem_erase.mp (mem_erase.mp inside).2).1
      rw [shadow, if_neg this]
    have same : ((absorb g object backing).object i).refCount = (g.object i).refCount := by
      by_cases here : i = object
      · subst here
        simp [absorb]
      · rw [absorb_other here]
    rw [same, count]
    exact refs
  · obtain ⟨-, old⟩ := mem inside
    by_cases here : i = object
    · subst here
      simp only [absorb, update_self]
      exact moveLoop_nodup _ _ _ _ (wf.pages i old)
    · rw [absorb_other here]
      exact wf.pages i old

theorem reference_eq (objects : I → VmObject I P D) (target : Option I) (i : I) :
    reference objects target i = { objects i with
      refCount := (objects i).refCount + if target = some i then 1 else 0 } := by
  cases target with
  | none => simp [reference]
  | some s =>
    by_cases here : i = s
    · subst here
      simp [reference]
    · rw [reference, update_of_ne here, if_neg fun same => here (some.inj same).symm, add_zero]

/-- What the bypass does to the fields. -/
theorem bypass_eq (distinct : backing ≠ object) (i : I) :
    (bypass g object backing).object i = { g.object i with
      shadow := if i = object then (g.object backing).shadow else (g.object i).shadow
      shadowOffset := if i = object then
          ((g.object object).shadowOffset + (g.object backing).shadowOffset) % 2 ^ 32
        else (g.object i).shadowOffset
      refCount := (g.object i).refCount + (if (g.object backing).shadow = some i then 1 else 0) -
        if i = backing then 1 else 0 } := by
  rw [bypass]
  dsimp only
  by_cases last : i = backing
  · subst last
    rw [update_self, reference_eq, update_of_ne distinct, if_neg distinct,
      if_neg distinct, if_pos rfl]
  rw [update_of_ne last, reference_eq]
  by_cases here : i = object
  · subst here
    rw [update_self, if_pos rfl, if_pos rfl, if_neg last, sub_zero]
  · rw [update_of_ne here, if_neg here, if_neg here, if_neg last, sub_zero]

theorem bypass_merged (distinct : backing ≠ object)
    (link : (g.object object).shadow = some backing) (noPager : (g.object object).pager = none)
    (noPager' : (g.object backing).pager = none)
    (unneeded : ∀ p ∈ (g.object backing).memq, pageNeeded (g.object object).shadowOffset
      (g.object object).size (g.object object).memq p = false) :
    Merged has g (bypass g object backing) object backing where
  live := Subset.refl _
  size i := by rw [bypass_eq distinct]
  link := link
  others i _ other := by
    rw [bypass_eq distinct, if_neg other, if_neg other]
    exact ⟨rfl, rfl, rfl⟩
  shadow := by rw [bypass_eq distinct, if_pos rfl]
  shadowOffset := by
    rw [bypass_eq distinct]
    exact if_pos rfl
  hit offset low _ := by
    rw [bypass_eq distinct]
    show (g.object object).hit has offset = _
    cases own : vmPageLookup (g.object object).memq offset with
    | some p => simp only [VmObject.hit, own, some_or]
    | none =>
      -- the backing object has no page there, as the loop would have found it needed
      have theirs : vmPageLookup (g.object backing).memq
          (offset + (g.object object).shadowOffset) = none := by
        rw [vmPageLookup, map_eq_none_iff, List.find?_eq_none]
        intro p member here
        have here : p.1 = offset + (g.object object).shadowOffset := by simpa using here
        have test := unneeded p member
        rw [pageNeeded, here, Nat.add_sub_cancel, own] at test
        simp [low.le] at test
      simp only [VmObject.hit, own, theirs, noPager, noPager', bind_none, or_none]

theorem bypass_wf (wf : g.Wf entryRefs rank) (live : object ∈ g.live)
    (link : (g.object object).shadow = some backing) :
    (bypass g object backing).Wf entryRefs rank := by
  have member := wf.closed object live backing link
  have distinct := wf.backing_ne live link
  refine ⟨fun i old s below => ?_, fun i old s below => ?_, fun i old => ?_, fun i old => ?_⟩
  · rw [bypass_eq distinct] at below
    dsimp only at below
    split_ifs at below with here
    · exact wf.closed backing member s below
    · exact wf.closed i old s below
  · rw [bypass_eq distinct] at below
    dsimp only at below
    split_ifs at below with here
    · subst here
      exact (wf.acyclic backing member s below).trans (wf.acyclic i live backing link)
    · exact wf.acyclic i old s below
  · have refs := wf.refs i old
    have count : (bypass g object backing).links i = g.links i +
        (if (g.object backing).shadow = some i then 1 else 0) - if i = backing then 1 else 0 := by
      rw [Objects.links, Objects.links, sum_split live member distinct, link]
      show ∑ j ∈ g.live, _ = _
      rw [sum_split live member distinct]
      simp only [bypass_eq distinct, if_true, if_neg distinct, some_inj]
      rw [sum_congr rfl fun j inside => by
        rw [if_neg (mem_erase.mp (mem_erase.mp inside).2).1]]
      rw [if_congr (eq_comm (a := i) (b := backing)) rfl rfl]
      ring
    rw [bypass_eq distinct, count]
    dsimp only
    rw [refs]
    omega
  · rw [bypass_eq distinct]
    exact wf.pages i old

/-- What a turn does that does not return. -/
theorem collapseStep_cases (step : collapseStep g object = some g') :
    ∃ backing, (g.object object).shadow = some backing ∧ (g.object object).pager = none ∧
      ((g.object backing).refCount = 1 ∧ g' = absorb g object backing ∨
        (g.object backing).pager = none ∧
          (∀ p ∈ (g.object backing).memq, pageNeeded (g.object object).shadowOffset
            (g.object object).size (g.object object).memq p = false) ∧
          g' = bypass g object backing) := by
  rw [collapseStep] at step
  split_ifs at step with busy
  obtain ⟨-, noPager⟩ := not_or.mp busy
  cases link : (g.object object).shadow with
  | none =>
    rw [link] at step
    cases step
  | some backing =>
    rw [link] at step
    dsimp only at step
    refine ⟨backing, rfl, not_isSome_iff_eq_none.mp noPager, ?_⟩
    split_ifs at step with _ _ single paged needed
    · exact .inl ⟨single, (some.inj step).symm⟩
    refine .inr ⟨not_isSome_iff_eq_none.mp paged, fun p member => ?_, (some.inj step).symm⟩
    by_contra test
    exact needed (List.any_eq_true.mpr ⟨p, member, Bool.eq_true_of_not_eq_false test⟩)

end Turns

/-! ## The loop -/

/-- What a collapse of the object keeps. -/
structure Keeps [DecidableEq I] (has : P → ℕ → Bool) (entryRefs rank : I → ℕ)
    (g g' : Objects I P D) : Prop where
  wf : g'.Wf entryRefs rank
  live : g'.live ⊆ g.live
  freed : ∀ i ∈ g.live, i ∉ g'.live → entryRefs i = 0
  size : ∀ i, (g'.object i).size = (g.object i).size
  shows_ : ∀ i ∈ g'.live, ∀ offset < (g.object i).size, ∀ found,
    Shows has g' i offset found ↔ Shows has g i offset found

section Loop

variable [DecidableEq I] {entryRefs rank : I → ℕ}

theorem Keeps.refl (wf : g.Wf entryRefs rank) : Keeps has entryRefs rank g g where
  wf := wf
  live := Subset.refl _
  freed _ member gone := absurd member gone
  size _ := rfl
  shows_ _ _ _ _ _ := Iff.rfl

theorem Keeps.trans {g₁ g₂ g₃ : Objects I P D} (first : Keeps has entryRefs rank g₁ g₂)
    (second : Keeps has entryRefs rank g₂ g₃) : Keeps has entryRefs rank g₁ g₃ where
  wf := second.wf
  live := second.live.trans first.live
  freed i member gone := by
    by_cases here : i ∈ g₂.live
    · exact second.freed i here gone
    · exact first.freed i member here
  size i := (second.size i).trans (first.size i)
  shows_ i member offset low found := by
    rw [second.shows_ i member offset ((first.size i).symm ▸ low)]
    exact first.shows_ i (second.live member) offset low found

/-- One turn. -/
theorem collapseStep_keeps (has : P → ℕ → Bool) (wf : g.Wf entryRefs rank)
    (inside : g.Inside object)
    (live : object ∈ g.live) (step : collapseStep g object = some g') :
    Keeps has entryRefs rank g g' ∧ g'.Inside object ∧ object ∈ g'.live ∧
      ∃ backing ∈ g.live, (g'.object object).shadow = (g.object backing).shadow ∧
        (g.object object).shadow = some backing := by
  obtain ⟨backing, link, noPager, turn⟩ := collapseStep_cases step
  have member := wf.closed object live backing link
  have distinct := wf.backing_ne live link
  suffices Merged has g g' object backing ∧ g'.Wf entryRefs rank ∧ object ∈ g'.live ∧
      ∀ i ∈ g.live, i ∉ g'.live → entryRefs i = 0 by
    obtain ⟨merged, wf', live', freed⟩ := this
    refine ⟨⟨wf', merged.live, freed, merged.size, fun i kept offset low found => ?_⟩,
      merged.inside wf wf' inside live live', live', backing, member, merged.shadow, link⟩
    exact merged.shows wf wf' inside live kept (inside.above i (merged.live kept) offset low)
  rcases turn with ⟨single, rfl⟩ | ⟨noPager', unneeded, rfl⟩
  · refine ⟨absorb_merged link noPager, absorb_wf wf live link single,
      mem_erase.mpr ⟨distinct.symm, live⟩, fun i old gone => ?_⟩
    -- the backing object is the one that is freed
    have here : i = backing := by
      by_contra other
      exact gone (mem_erase.mpr ⟨other, old⟩)
    rw [here]
    exact (wf.only_link live link single).1
  · exact ⟨bypass_merged distinct link noPager noPager' unneeded, bypass_wf wf live link, live,
      fun i old gone => absurd old gone⟩

/-- The loop goes down the chain, and so it ends. -/
theorem collapseLoop_keeps (has : P → ℕ → Bool) (wf : g.Wf entryRefs rank)
    (inside : g.Inside object)
    (live : object ∈ g.live) (depth : ℕ)
    (deep : ∀ s, (g.object object).shadow = some s → rank s < depth) :
    ∃ g', (∀ fuel, depth < fuel → collapseLoop fuel g object = some g') ∧
      Keeps has entryRefs rank g g' := by
  induction depth generalizing g with
  | zero =>
    have bottom : collapseStep g object = none := by
      by_contra step
      obtain ⟨g', step⟩ := ne_none_iff_exists'.mp step
      obtain ⟨backing, link, -⟩ := collapseStep_cases step
      exact absurd (deep backing link) (Nat.not_lt_zero _)
    refine ⟨g, fun fuel enough => ?_, .refl wf⟩
    obtain ⟨n, rfl⟩ := Nat.exists_eq_succ_of_ne_zero enough.ne'
    rw [collapseLoop, bottom]
  | succ depth ih =>
    cases step : collapseStep g object with
    | none =>
      refine ⟨g, fun fuel enough => ?_, .refl wf⟩
      obtain ⟨n, rfl⟩ := Nat.exists_eq_succ_of_ne_zero (Nat.ne_zero_of_lt enough)
      rw [collapseLoop, step]
    | some g₁ =>
      obtain ⟨turn, inside', live', backing, member, down, link⟩ :=
        collapseStep_keeps has wf inside live step
      obtain ⟨g', ends, rest⟩ := ih turn.wf inside' live' fun s next => by
        have := wf.acyclic backing member s (down.symm.trans next)
        have := deep backing link
        omega
      refine ⟨g', fun fuel enough => ?_, turn.trans rest⟩
      obtain ⟨n, rfl⟩ := Nat.exists_eq_succ_of_ne_zero (Nat.ne_zero_of_lt enough)
      rw [collapseLoop, step]
      exact ends n (by omega)

/-- `vm_object_collapse` ends, and leaves a well-formed graph in which every object that still
exists shows at every offset what it showed before.  The objects that it frees are not referred to
by an entry. -/
theorem vmObjectCollapse_shows (has : P → ℕ → Bool) (allowed : Bool) (wf : g.Wf entryRefs rank)
    (target : Option I) (live : ∀ object, target = some object → object ∈ g.live)
    (inside : ∀ object, target = some object → g.Inside object) :
    ∃ g', (∃ n, ∀ fuel, n < fuel → vmObjectCollapse allowed fuel g target = some g') ∧
      g'.Wf entryRefs rank ∧ g'.live ⊆ g.live ∧
      (∀ i ∈ g.live, i ∉ g'.live → entryRefs i = 0) ∧
      ∀ i ∈ g'.live, (g'.object i).size = (g.object i).size ∧ ∀ offset < (g.object i).size, ∀ found,
          Shows has g' i offset found ↔ Shows has g i offset found := by
  suffices ∃ g', (∃ n, ∀ fuel, n < fuel → vmObjectCollapse allowed fuel g target = some g') ∧
      Keeps has entryRefs rank g g' by
    obtain ⟨g', ends, keeps⟩ := this
    exact ⟨g', ends, keeps.wf, keeps.live, keeps.freed,
      fun i member => ⟨keeps.size i, keeps.shows_ i member⟩⟩
  cases allowed with
  | false => exact ⟨g, ⟨0, fun fuel _ => rfl⟩, .refl wf⟩
  | true =>
    cases target with
    | none => exact ⟨g, ⟨0, fun fuel _ => rfl⟩, .refl wf⟩
    | some object =>
      have member := live object rfl
      obtain ⟨g', ends, keeps⟩ := collapseLoop_keeps has wf (inside object rfl) member
        (rank object) fun s link => wf.acyclic object member s link
      exact ⟨g', ⟨rank object, ends⟩, keeps⟩

end Loop

/-! ## Chains of three objects -/

/-- An entry refers to object 2, which shadows object 1, which shadows object 0 at an offset. Object
0 has one page. -/
def chain (size shadowOffset page : ℕ) : Objects ℕ Unit ℕ where
  live := {0, 1, 2}
  object i :=
    { memq := if i = 0 then [(page, 7)] else []
      size := if i = 1 then size else 0x2000
      refCount := if i ≤ 2 then 1 else 0
      copy := none
      shadow := if i = 0 then none else some (i - 1)
      shadowOffset := if i = 1 then shadowOffset else 0
      pager := none
      pagingOffset := 0
      pagingInProgress := 0
      internal := true }

theorem chain_wf (size shadowOffset page : ℕ) :
    (chain size shadowOffset page).Wf (fun i => if i = 2 then 1 else 0) id := by
  refine ⟨?_, ?_, ?_, ?_⟩
  · simp [chain]
  · simp [chain]
  · intro i member
    have three : i = 0 ∨ i = 1 ∨ i = 2 := by simpa [chain] using member
    rcases three with rfl | rfl | rfl <;> rfl
  intro i _
  rw [chain]
  dsimp only
  split_ifs
  · exact List.nodup_singleton _
  · exact List.nodup_nil

theorem collapse_chain (size shadowOffset page : ℕ) :
    vmObjectCollapse true 2 (chain size shadowOffset page) (some 1) =
      some (absorb (chain size shadowOffset page) 1 0) := by
  have first : collapseStep (chain size shadowOffset page) 1 =
      some (absorb (chain size shadowOffset page) 1 0) := by
    simp [collapseStep, chain]
  have last : collapseStep (absorb (chain size shadowOffset page) 1 0) 1 = none := by
    simp [collapseStep, absorb, chain]
  simp only [vmObjectCollapse, if_true, collapseLoop, first, last]

variable {size shadowOffset page : ℕ}

/-- The object 2 shows the page of the object 0 where the offset is added. -/
theorem chain_shows (offset : ℕ) (low : offset < 2 ^ 32)
    (here : (offset + shadowOffset) % 2 ^ 32 = page) :
    Shows (fun _ _ => false) (chain size shadowOffset page) 2 offset (.page 7) := by
  refine .shadow (by simp [VmObject.hit, vmPageLookup, chain]) rfl ?_
  refine .shadow (by simp [VmObject.hit, vmPageLookup, chain]) rfl ?_
  refine .here ?_
  show VmObject.hit _ _ (((offset + 0) % 2 ^ 32 + shadowOffset) % 2 ^ 32) = _
  rw [add_zero, Nat.mod_eq_of_lt low, here]
  simp [VmObject.hit, vmPageLookup, chain]

/-- If the page is not moved, then the object 2 shows zeros after the collapse of the object 1. -/
theorem chain_zero (offset : ℕ) (lost : page < shadowOffset ∨ size ≤ page - shadowOffset) :
    Shows (fun _ _ => false) (absorb (chain size shadowOffset page) 1 0) 2 offset .zero := by
  refine .shadow (by simp [VmObject.hit, vmPageLookup, absorb, chain]) rfl ?_
  refine .zero ?_ (by simp [absorb, chain])
  simp [VmObject.hit, vmPageLookup, absorb, chain, moveLoop, lost]

/-- The collapse of object 1 of a well-formed graph takes a page from object 2, which an entry
refers to and which is larger than the page's offset. -/
def LosesPage (g : Objects ℕ Unit ℕ) : Prop :=
  ∃ g' entryRefs rank, g.Wf entryRefs rank ∧ 1 ∈ g.live ∧
    vmObjectCollapse true 2 g (some 1) = some g' ∧
    2 ∈ g'.live ∧ entryRefs 2 = 1 ∧ 0x1000 < (g.object 2).size ∧
    Shows (fun _ _ => false) g 2 0x1000 (.page 7) ∧
    ¬ Shows (fun _ _ => false) g' 2 0x1000 (.page 7)

theorem chain_losesPage (here : (0x1000 + shadowOffset) % 2 ^ 32 = page)
    (gone : page < shadowOffset ∨ size ≤ page - shadowOffset) :
    LosesPage (chain size shadowOffset page) := by
  refine ⟨_, _, _, chain_wf size shadowOffset page, by simp [chain], collapse_chain _ _ _,
    by simp [absorb, chain], rfl, by simp [chain], chain_shows 0x1000 (by decide) here, ?_⟩
  intro kept
  cases kept.unique (chain_zero 0x1000 gone)

/-- Object 1 ends before the page that object 2 shows, or the offset of the page wraps around. -/
theorem vmObjectCollapse_cuts :
    LosesPage (chain 0x1000 0 0x1000) ∧ LosesPage (chain 0x2000 0xFFFFF000 0) :=
  ⟨chain_losesPage (by decide) (by decide), chain_losesPage (by decide) (by decide)⟩

/-- Without an offset of the shadow, all chains stay at their offsets. -/
theorem chain_arrives {i t offset' : ℕ} (low : offset < 2 ^ 32)
    (arrives : Arrives (chain size 0 page) i offset t offset') : offset' = offset := by
  induction arrives with
  | here => rfl
  | @shadow i s t offset offset' link arrives ih =>
    have next : ((chain size 0 page).object i).shadowOffset = 0 := by simp [chain]
    rw [next, add_zero, Nat.mod_eq_of_lt low] at ih
    exact ih low

/-- No chain passes object 1 behind its end if it is as large as object 2. -/
theorem chain_inside (page : ℕ) : (chain 0x2000 0 page).Inside 1 where
  above i _ offset low offset' arrives := by
    have size : ∀ i, ((chain 0x2000 0 page).object i).size = 0x2000 := by simp [chain]
    rw [size] at low ⊢
    rw [chain_arrives (by omega) arrives]
    exact low
  below offset low t offset' s arrives _ := by
    have size : ((chain 0x2000 0 page).object 1).size = 0x2000 := rfl
    have next : ((chain 0x2000 0 page).object t).shadowOffset = 0 := by simp [chain]
    rw [size] at low
    rw [chain_arrives (by omega) arrives, next]
    omega

/-- The page of object 0 becomes a page of object 1, and object 2 still shows it. -/
theorem vmObjectCollapse_shows_sample : ∃ g' : Objects ℕ Unit ℕ,
    (∃ n, ∀ fuel, n < fuel →
      vmObjectCollapse true fuel (chain 0x2000 0 0x1000) (some 1) = some g') ∧
    Shows (fun _ _ => false) g' 2 0x1000 (.page 7) := by
  obtain ⟨g', ends, -, -, freed, views⟩ := vmObjectCollapse_shows (fun _ _ => false) true
    (chain_wf 0x2000 0 0x1000) (some 1) (by simp [chain]) (by
      rintro object ⟨⟩
      exact chain_inside 0x1000)
  refine ⟨g', ends, ?_⟩
  have kept : 2 ∈ g'.live := by
    by_contra gone
    exact absurd (freed 2 (by simp [chain]) gone) (by decide)
  exact ((views 2 kept).2 0x1000 (by simp [chain]) _).mpr
    (chain_shows 0x1000 (by decide) (by decide))

end Darwin.Vm.Object
