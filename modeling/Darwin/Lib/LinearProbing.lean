import Mathlib.Data.Finset.Card

/-!
# Linear probing

A hash table with open addressing: `size` slots in a circle, each empty or with an element.  An
element stands at its home slot or after it, with no empty slot between.  Deletion leaves a hole,
which is filled by the next element that was displaced past it, until the end of the clump.

## Main definitions

* `after`, `ahead` — the next slot of the circle, and how far one slot is ahead of another
* `probe` — walk around the circle to the first slot that meets a condition
* `Probed` — the invariant, with a hole or without

## Main results

* `probe_found` — a walk finds the first slot of its kind
* `Probed.insert`, `Probed.fill`, `Probed.close` — insertion, and the two steps of deletion
-/

namespace Darwin.Lib.Probing

open Option
open Function (update update_of_ne update_self)

/-- The next slot of the circle. -/
def after (size x : ℕ) : ℕ := if x + 1 = size then 0 else x + 1

/-- How many steps lead from `x` to `y`. -/
def ahead (size x y : ℕ) : ℕ := if x ≤ y then y - x else y + size - x

/-- Walk from `x` to the first slot that meets a condition. -/
def probe (size : ℕ) (stop : ℕ → Bool) : (fuel x : ℕ) → Option ℕ
  | 0, _ => none
  | fuel + 1, x => if stop x then some x else probe size stop fuel (after size x)

section Circle

variable {size x y z : ℕ}

theorem after_lt (inside : x < size) : after size x < size := by
  unfold after
  split_ifs <;> omega

theorem ahead_self : ahead size x x = 0 := by
  unfold ahead
  rw [if_pos le_rfl, Nat.sub_self]

variable (hx : x < size)

include hx

theorem ahead_lt (hy : y < size) : ahead size x y < size := by
  unfold ahead
  split_ifs <;> omega

theorem eq_of_ahead_eq (hy : y < size) (hz : z < size)
    (same : ahead size x y = ahead size x z) : y = z := by
  unfold ahead at same
  split_ifs at same <;> omega

/-- One step goes one slot ahead, unless it closes the circle. -/
theorem ahead_after (apart : after size y ≠ x) :
    ahead size x (after size y) = ahead size x y + 1 := by
  unfold ahead after at *
  split_ifs at * <;> omega

theorem ahead_from_after (_ : y < size) (ne : x ≠ y) :
    ahead size x y = ahead size (after size x) y + 1 := by
  unfold ahead after at *
  split_ifs at * <;> omega

/-- A slot passed on the way divides the way. -/
theorem ahead_add (hy : y < size) (_ : z < size)
    (passed : ahead size x y ≤ ahead size x z) :
    ahead size x z = ahead size x y + ahead size y z := by
  unfold ahead at *
  split_ifs at * <;> omega

end Circle

section Probe

variable {size x y z fuel : ℕ} {stop : ℕ → Bool}

/-- The walk finds the first slot that meets the condition, if there is one. -/
theorem probe_found (stop : ℕ → Bool) (fuel : ℕ) (hx : x < size) (hz : z < size)
    (stops : stop z = true)
    (enough : ahead size x z < fuel) :
    ∃ y < size, probe size stop fuel x = some y ∧ stop y = true ∧
      ∀ w < size, ahead size x w < ahead size x y → stop w = false := by
  induction fuel generalizing x with
  | zero => exact absurd enough (Nat.not_lt_zero _)
  | succ fuel ih =>
    rw [probe]
    by_cases here : stop x = true
    · refine ⟨x, hx, if_pos here, here, fun w _ before => ?_⟩
      rw [ahead_self] at before
      exact absurd before (Nat.not_lt_zero _)
    have ne : x ≠ z := fun same => here (same ▸ stops)
    have closer := ahead_from_after hx hz ne
    obtain ⟨y, hy, found, stopped, first⟩ := ih (after_lt hx) (by omega)
    refine ⟨y, hy, by rw [if_neg here, found], stopped, fun w hw before => ?_⟩
    by_cases start : x = w
    · rw [← start]
      exact Bool.eq_false_iff.mpr here
    · have ne : x ≠ y := fun same => here (same ▸ stopped)
      rw [ahead_from_after hx hw start, ahead_from_after hx hy ne] at before
      exact first w hw (Nat.lt_of_succ_lt_succ before)

end Probe

/-! ## The invariant -/

/-- The elements stand in their slots, each at the end of a clump that begins at its home.  The
content of the hole, where there is one, does not count as an element. -/
structure Probed {V : Type*} [Zero V] (size : ℕ) (home : V → ℕ) (slot : ℕ → V) (members : Set V)
    (hole : Option ℕ) : Prop where
  found : ∀ v ∈ members, ∃ p < size, some p ≠ hole ∧ slot p = v ∧
    ∀ x < size, ahead size (home v) x < ahead size (home v) p → slot x ≠ 0
  member : ∀ p < size, some p ≠ hole → slot p ≠ 0 → slot p ∈ members
  unique : ∀ p < size, ∀ q < size, some p ≠ hole → some q ≠ hole → slot p ≠ 0 →
    slot p = slot q → p = q
  nonzero : (0 : V) ∉ members
  home_lt : ∀ v ∈ members, home v < size

section Table

variable {V : Type*} [Zero V] {size : ℕ} {home : V → ℕ} {slot : ℕ → V} {members : Set V}
  {hole d p h : ℕ} {v : V}

/-- The invariant depends on the homes of the elements only. -/
theorem Probed.congr_home {home' : V → ℕ} {hole : Option ℕ}
    (probed : Probed size home slot members hole) (same : ∀ v ∈ members, home' v = home v) :
    Probed size home' slot members hole := by
  refine ⟨fun v mem => ?_, probed.member, probed.unique, probed.nonzero, fun v mem => ?_⟩
  · rw [same v mem]
    exact probed.found v mem
  · rw [same v mem]
    exact probed.home_lt v mem

/-- A table with fewer elements than slots has an empty slot. -/
theorem Probed.exists_empty (room : Finset V) (probed : Probed size home slot members none)
    (fit : ∀ v ∈ members, v ∈ room) (less : room.card < size) : ∃ z < size, slot z = 0 := by
  by_contra all
  have full {x : ℕ} (hx : x < size) : slot x ≠ 0 := fun empty => all ⟨x, hx, empty⟩
  have le : (Finset.range size).card ≤ room.card := by
    refine Finset.card_le_card_of_injOn slot (fun x inside => ?_) fun x hx y hy same => ?_
    · have hx := Finset.mem_range.mp inside
      exact fit _ (probed.member x hx (by simp) (full hx))
    · have hx := Finset.mem_range.mp hx
      have hy := Finset.mem_range.mp hy
      exact probed.unique x hx y hy (by simp) (by simp) (full hx) same
  rw [Finset.card_range] at le
  omega

/-- A new element goes in the first empty slot from its home. -/
theorem Probed.insert (probed : Probed size home slot members none) (inside : p < size)
    (empty : slot p = 0) (fresh : v ∉ members) (nonzero : v ≠ 0) (home_lt : home v < size)
    (first : ∀ x < size, ahead size (home v) x < ahead size (home v) p → slot x ≠ 0) :
    Probed size home (update slot p v) (Insert.insert v members) none := by
  have keeps {x : ℕ} (full : slot x ≠ 0) : update slot p v x = slot x := by
    refine update_of_ne (fun same => full ?_) _ _
    rw [same, empty]
  have still {x : ℕ} (full : slot x ≠ 0) : update slot p v x ≠ 0 := by
    rw [keeps full]
    exact full
  refine ⟨fun u mem => ?_, fun q hq _ full => ?_, fun q hq r hr _ _ full same => ?_, ?_, ?_⟩
  · rcases mem with rfl | mem
    · exact ⟨p, inside, by simp, update_self _ _ _, fun x hx before =>
        still (first x hx before)⟩
    · obtain ⟨q, hq, -, here, path⟩ := probed.found u mem
      have full : slot q ≠ 0 := fun zero => probed.nonzero (zero ▸ here ▸ mem)
      exact ⟨q, hq, by simp, (keeps full).trans here, fun x hx before => still (path x hx before)⟩
  · by_cases here : q = p
    · subst here
      rw [update_self]
      exact Set.mem_insert _ _
    · rw [update_of_ne here] at full ⊢
      exact Set.mem_insert_of_mem _ (probed.member q hq (by simp) full)
  · by_cases hqp : q = p
    · by_cases hrp : r = p
      · exact hqp.trans hrp.symm
      subst hqp
      rw [update_self] at same full
      rw [update_of_ne hrp] at same
      exact absurd (same ▸ probed.member r hr (by simp) (same ▸ full)) fresh
    · rw [update_of_ne hqp] at same full
      by_cases hrp : r = p
      · subst hrp
        rw [update_self] at same
        exact absurd (same ▸ probed.member q hq (by simp) full) fresh
      · rw [update_of_ne hrp] at same
        exact probed.unique q hq r hr (by simp) (by simp) full same
  · rintro (zero | mem)
    · exact nonzero zero.symm
    · exact probed.nonzero mem
  · rintro u (rfl | mem)
    · exact home_lt
    · exact probed.home_lt u mem

/-- Deletion begins with a hole at the slot of the element. -/
theorem Probed.openHole (probed : Probed size home slot members none) (inside : h < size) :
    Probed size home slot (members \ {slot h}) (some h) := by
  refine ⟨fun u mem => ?_, fun q hq other full' => ?_, fun q hq r hr _ _ full same => ?_, ?_, ?_⟩
  · obtain ⟨mem, ne⟩ := mem
    obtain ⟨q, hq, -, here, path⟩ := probed.found u mem
    refine ⟨q, hq, fun same => ne ?_, here, path⟩
    rw [← some.inj same]
    exact here.symm
  · refine ⟨probed.member q hq (by simp) full', fun same => other ?_⟩
    rw [probed.unique q hq h inside (by simp) (by simp) full' same]
  · exact probed.unique q hq r hr (by simp) (by simp) full same
  · exact fun mem => probed.nonzero mem.1
  · exact fun u mem => probed.home_lt u mem.1

/-- Between the hole and `d` no element was displaced past the hole. -/
def Settled (size : ℕ) (home : V → ℕ) (slot : ℕ → V) (hole d : ℕ) : Prop :=
  ∀ x < size, x ≠ hole → ahead size hole x ≤ ahead size hole d → slot x ≠ 0 ∧
    ¬ ahead size (home (slot x)) hole < ahead size (home (slot x)) x

theorem Settled.start (inside : hole < size) : Settled size home slot hole hole := by
  intro x hx ne le
  exact absurd (eq_of_ahead_eq inside hx inside (by rw [ahead_self] at le ⊢; omega)) ne

/-- While an empty slot remains, the search behind the hole does not come around to it. -/
theorem Settled.after_ne (settled : Settled size home slot hole d) (inside : hole < size) {z : ℕ}
    (hz : z < size) (ne : z ≠ hole) (empty : slot z = 0) :
    after size d ≠ hole := by
  intro closes
  have all : ahead size hole z ≤ ahead size hole d := by
    unfold ahead after at *
    split_ifs at * <;> omega
  exact (settled z hz ne all).1 empty

/-- The next element was not displaced past the hole either. -/
theorem Settled.step (settled : Settled size home slot hole d) (inside : hole < size)
    (hd : d < size) (apart : after size d ≠ hole) (full : slot (after size d) ≠ 0)
    (stays : ¬ ahead size (home (slot (after size d))) hole <
      ahead size (home (slot (after size d))) (after size d)) :
    Settled size home slot hole (after size d) := by
  intro x hx ne le
  rw [ahead_after inside apart] at le
  rcases Nat.le_succ_iff.mp le with before | here
  · exact settled x hx ne before
  have here : ahead size hole x = ahead size hole (after size d) :=
    here.trans (ahead_after inside apart).symm
  rw [eq_of_ahead_eq inside hx (after_lt hd) here]
  exact ⟨full, stays⟩

variable (probed : Probed size home slot members (some hole)) (inside : hole < size) (hd : d < size)

include probed inside hd

/-- A displaced element moves to the hole and leaves a new one. -/
theorem Probed.fill (ne : d ≠ hole) (full : slot d ≠ 0)
    (displaced : ahead size (home (slot d)) hole < ahead size (home (slot d)) d) :
    Probed size home (update slot hole (slot d)) members (some d) := by
  have notHole {x : ℕ} (other : x ≠ hole) : some x ≠ some hole :=
    fun same => other (some.inj same)
  have still {x : ℕ} (full' : slot x ≠ 0) : update slot hole (slot d) x ≠ 0 := by
    by_cases here : x = hole
    · rw [here, update_self]
      exact full
    · rw [update_of_ne here]
      exact full'
  refine ⟨fun u mem => ?_, fun q hq other full' => ?_,
    fun q hq r hr otherQ otherR full' same => ?_, probed.nonzero, probed.home_lt⟩
  · obtain ⟨q, hq, other, here, path⟩ := probed.found u mem
    by_cases moved : q = d
    · subst moved
      refine ⟨hole, inside, fun same => ne (some.inj same).symm, ?_, fun x hx before => ?_⟩
      · rw [update_self, here]
      · rw [here] at displaced
        exact still (path x hx (before.trans displaced))
    · refine ⟨q, hq, fun same => moved (some.inj same), ?_, fun x hx before =>
        still (path x hx before)⟩
      rw [update_of_ne fun same => other (congrArg some same), here]
  · by_cases here : q = hole
    · rw [here, update_self]
      exact probed.member d hd (notHole ne) full
    · rw [update_of_ne here] at full' ⊢
      exact probed.member q hq (notHole here) full'
  · have apart {x : ℕ} (hx : x < size) (other : some x ≠ some d) (away : x ≠ hole)
        (same : slot d = slot x) : False :=
      other (congrArg some (probed.unique d hd x hx (notHole ne) (notHole away) full same).symm)
    by_cases hqh : q = hole
    · by_cases hrh : r = hole
      · exact hqh.trans hrh.symm
      · rw [hqh, update_self, update_of_ne hrh] at same
        exact (apart hr otherR hrh same).elim
    · rw [update_of_ne hqh] at same full'
      by_cases hrh : r = hole
      · rw [hrh, update_self] at same
        exact (apart hq otherQ hqh same.symm).elim
      · rw [update_of_ne hrh] at same
        exact probed.unique q hq r hr (notHole hqh) (notHole hrh) full' same

/-- At the end of the clump the hole becomes an empty slot. -/
theorem Probed.close (settled : Settled size home slot hole d) (apart : after size d ≠ hole)
    (empty : slot (after size d) = 0) : Probed size home (update slot hole 0) members none := by
  have keeps {x : ℕ} (other : x ≠ hole) : update slot hole 0 x = slot x :=
    update_of_ne other _ _
  refine ⟨fun u mem => ?_, fun q hq _ full => ?_, fun q hq r hr _ _ full same => ?_,
    probed.nonzero, probed.home_lt⟩
  · obtain ⟨q, hq, other, here, path⟩ := probed.found u mem
    have away : q ≠ hole := fun same => other (congrArg some same)
    refine ⟨q, hq, by simp, (keeps away).trans here, fun x hx before => ?_⟩
    by_cases passed : x = hole
    · -- An element whose way leads through the hole stands in the same clump, behind the hole.
      exfalso
      rw [passed] at before
      have homeInside := probed.home_lt u mem
      have way := ahead_add homeInside inside hq before.le
      by_cases scanned : ahead size hole q ≤ ahead size hole d
      · refine (settled q hq away scanned).2 ?_
        rw [here]
        exact before
      have beyond : ahead size hole (after size d) ≤ ahead size hole q := by
        rw [ahead_after inside apart]
        omega
      rcases beyond.eq_or_lt with same | further
      · rw [← eq_of_ahead_eq inside (after_lt hd) hq same] at here
        exact probed.nonzero (empty ▸ here ▸ mem)
      refine path (after size d) (after_lt hd) ?_ empty
      rcases lt_or_ge (ahead size (home u) (after size d)) (ahead size (home u) hole) with
        short | past
      · omega
      · have way' := ahead_add homeInside inside (after_lt hd) past
        omega
    · rw [keeps passed]
      exact path x hx before
  · have away : q ≠ hole := by
      rintro rfl
      exact full (update_self _ _ _)
    rw [keeps away] at full ⊢
    exact probed.member q hq (fun same => away (some.inj same)) full
  · have away : q ≠ hole := by
      rintro rfl
      exact full (update_self _ _ _)
    have away' : r ≠ hole := by
      rintro rfl
      rw [update_self] at same
      exact full same
    rw [keeps away] at full
    rw [keeps away, keeps away'] at same
    exact probed.unique q hq r hr (fun same => away (some.inj same))
      (fun same => away' (some.inj same)) full same

end Table

end Darwin.Lib.Probing
