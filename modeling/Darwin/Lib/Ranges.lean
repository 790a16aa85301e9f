import Mathlib.Data.List.Pairwise
import Mathlib.Data.List.Perm.Basic

/-!
# Ranges of addresses

Lists of address ranges, as the tables of a memory manager hold them.  `cover rs a` counts the
ranges an address lies in; `Tiles rs low high` says that every address of `[low, high)` lies in
exactly one range and every other address in none, which splitting, joining and reordering ranges
keep.  `Apart rs` says that ranges are in order of address with a gap between any two, and
`coalesce` closes the first place where two neighbours touch.

## Main results

* `Tiles.inside`, `Tiles.pairwise` — the ranges of a tiling lie inside it and are disjoint
* `apart_coalesce` — one pass puts two lists that touch in one place apart again
-/

namespace Darwin.Lib

open List

/-- A range of addresses. -/
@[ext] structure Range where
  start : ℕ
  size : ℕ
  deriving DecidableEq, Repr

namespace Range

/-- The first address after a range. -/
def stop (r : Range) : ℕ := r.start + r.size

@[simp] theorem stop_mk (start size : ℕ) : (Range.mk start size).stop = start + size := rfl

/-- The address lies in the range. -/
def Has (r : Range) (a : ℕ) : Prop := r.start ≤ a ∧ a < r.stop

instance (r : Range) (a : ℕ) : Decidable (r.Has a) := inferInstanceAs (Decidable (_ ∧ _))

end Range

/-! ## Covering -/

section Cover

variable {rs rs' : List Range} {r : Range} {low high a m n : ℕ}

/-- The number of ranges an address lies in. -/
def cover (rs : List Range) (a : ℕ) : ℕ := rs.countP fun r => decide (r.Has a)

@[simp] theorem cover_nil (a : ℕ) : cover [] a = 0 := rfl

@[simp] theorem cover_append (rs rs' : List Range) (a : ℕ) :
    cover (rs ++ rs') a = cover rs a + cover rs' a :=
  countP_append

theorem cover_cons (r : Range) (rs : List Range) (a : ℕ) :
    cover (r :: rs) a = cover [r] a + cover rs a := by
  rw [← cover_append, singleton_append]

theorem cover_single (r : Range) (a : ℕ) : cover [r] a = if r.Has a then 1 else 0 := by
  simp [cover, countP_cons]

theorem cover_mk (start size a : ℕ) :
    cover [⟨start, size⟩] a = if start ≤ a ∧ a < start + size then 1 else 0 :=
  cover_single _ _

theorem cover_perm (perm : rs.Perm rs') (a : ℕ) : cover rs a = cover rs' a :=
  perm.countP_eq _

/-- Two ranges that touch cover what the joined range covers. -/
theorem cover_join (start m n a : ℕ) :
    cover [⟨start, m⟩] a + cover [⟨start + m, n⟩] a = cover [⟨start, m + n⟩] a := by
  rw [cover_mk, cover_mk, cover_mk]
  split_ifs <;> omega

theorem cover_pos_iff : 0 < cover rs a ↔ ∃ r ∈ rs, r.Has a := by
  simp [cover, countP_pos_iff]

theorem cover_eq_zero_iff : cover rs a = 0 ↔ ∀ r ∈ rs, ¬ r.Has a := by
  simp [cover, countP_eq_zero]

/-- Every address of `[low, high)` lies in exactly one of the ranges, every other in none. -/
def Tiles (rs : List Range) (low high : ℕ) : Prop :=
  ∀ a, cover rs a = if low ≤ a ∧ a < high then 1 else 0

theorem Tiles.congr (tiles : Tiles rs low high) (same : ∀ a, cover rs' a = cover rs a) :
    Tiles rs' low high := by
  intro a
  rw [same]
  exact tiles a

theorem tiles_single (start size : ℕ) : Tiles [⟨start, size⟩] start (start + size) := by
  intro a
  exact cover_mk start size a

/-- A range of a tiling lies inside it. -/
theorem Tiles.inside (tiles : Tiles rs low high) (mem : r ∈ rs) (nonempty : 0 < r.size) :
    low ≤ r.start ∧ r.stop ≤ high := by
  have covered : ∀ a, r.Has a → low ≤ a ∧ a < high := by
    intro a has
    have positive : 0 < cover rs a := cover_pos_iff.mpr ⟨r, mem, has⟩
    rw [tiles a] at positive
    by_contra outside
    rw [if_neg outside] at positive
    exact Nat.lt_irrefl 0 positive
  have first := covered r.start ⟨Nat.le_refl _, Nat.lt_add_of_pos_right nonempty⟩
  have last := covered (r.stop - 1) (by unfold Range.Has Range.stop; omega)
  omega

/-- Two ranges of a tiling have no address in common. -/
theorem Tiles.pairwise (tiles : Tiles rs low high) :
    rs.Pairwise fun r r' => ∀ a, ¬ (r.Has a ∧ r'.Has a) := by
  have few : ∀ a, cover rs a ≤ 1 := by
    intro a
    rw [tiles a]
    split_ifs <;> omega
  clear tiles
  induction rs with
  | nil => exact List.Pairwise.nil
  | cons r rs ih =>
    rw [pairwise_cons]
    constructor
    · rintro r' mem a ⟨here, there⟩
      have first := few a
      have rest : 0 < cover rs a := cover_pos_iff.mpr ⟨r', mem, there⟩
      rw [cover_cons, cover_single, if_pos here] at first
      omega
    · apply ih
      intro a
      have all := few a
      rw [cover_cons] at all
      omega

/-- Nonempty ranges without a common address lie one after the other. -/
theorem Range.before_or_after {r r' : Range} (nonempty : 0 < r.size) (nonempty' : 0 < r'.size)
    (disjoint : ∀ a, ¬ (r.Has a ∧ r'.Has a)) : r.stop ≤ r'.start ∨ r'.stop ≤ r.start := by
  have first := disjoint r.start
  have second := disjoint r'.start
  unfold Range.Has Range.stop at *
  omega

end Cover

/-! ## Ranges in order -/

section Order

variable {rs rs' l₁ l₂ : List Range} {r : Range}

/-- The ranges are in order of address, and no two touch. -/
def Apart (rs : List Range) : Prop := rs.Pairwise fun r r' => r.stop < r'.start

theorem Apart.single (r : Range) : Apart [r] := pairwise_singleton _ _

theorem apart_cons : Apart (r :: rs) ↔ (∀ r' ∈ rs, r.stop < r'.start) ∧ Apart rs :=
  pairwise_cons

theorem apart_append : Apart (l₁ ++ l₂) ↔
    Apart l₁ ∧ Apart l₂ ∧ ∀ r ∈ l₁, ∀ r' ∈ l₂, r.stop < r'.start :=
  pairwise_append

/-- Join the first two neighbours that touch. -/
def coalesce : List Range → List Range
  | [] => []
  | [r] => [r]
  | r :: r' :: rs =>
    if r.stop = r'.start then ⟨r.start, r.size + r'.size⟩ :: rs else r :: coalesce (r' :: rs)

example : coalesce [⟨0, 2⟩, ⟨2, 3⟩, ⟨9, 1⟩] = [⟨0, 5⟩, ⟨9, 1⟩] := by
  rw [coalesce]
  rfl

theorem cover_coalesce (rs : List Range) (a : ℕ) : cover (coalesce rs) a = cover rs a := by
  induction rs using coalesce.induct with
  | case1 => rfl
  | case2 => rfl
  | case3 r r' rs touch =>
    have next : Range.mk (r.start + r.size) r'.size = r' := by
      ext
      · exact touch
      · rfl
    rw [coalesce, if_pos touch, cover_cons, ← cover_join, next, cover_cons r (r' :: rs),
      cover_cons r' rs]
    exact Nat.add_assoc _ _ _
  | case4 r r' rs gap ih =>
    rw [coalesce, if_neg gap, cover_cons, ih, ← cover_cons]

theorem coalesce_of_apart (apart : Apart rs) : coalesce rs = rs := by
  induction rs using coalesce.induct with
  | case1 => rfl
  | case2 => rfl
  | case3 r r' rs touch =>
    have gap := (apart_cons.mp apart).1 r' (mem_cons_self ..)
    omega
  | case4 r r' rs gap ih => rw [coalesce, if_neg gap, ih (apart_cons.mp apart).2]

/-- What `coalesce` leaves starts where some range started. -/
theorem start_of_mem_coalesce (mem : r ∈ coalesce rs) : ∃ r' ∈ rs, r'.start = r.start := by
  induction rs using coalesce.induct with
  | case1 => cases mem
  | case2 r' => exact ⟨r, mem, rfl⟩
  | case3 r₁ r₂ rs touch =>
    rw [coalesce, if_pos touch, mem_cons] at mem
    rcases mem with rfl | mem
    · exact ⟨r₁, mem_cons_self .., rfl⟩
    · exact ⟨r, by simp [mem], rfl⟩
  | case4 r₁ r₂ rs gap ih =>
    rw [coalesce, if_neg gap, mem_cons] at mem
    rcases mem with rfl | mem
    · exact ⟨r, mem_cons_self .., rfl⟩
    · obtain ⟨r', mem', same⟩ := ih mem
      exact ⟨r', mem_cons_of_mem _ mem', same⟩

theorem size_of_mem_coalesce (nonempty : ∀ r ∈ rs, 0 < r.size) (mem : r ∈ coalesce rs) :
    0 < r.size := by
  induction rs using coalesce.induct with
  | case1 => cases mem
  | case2 r' => exact nonempty r mem
  | case3 r₁ r₂ rs touch =>
    rw [coalesce, if_pos touch, mem_cons] at mem
    rcases mem with rfl | mem
    · exact Nat.add_pos_left (nonempty r₁ (mem_cons_self ..)) _
    · exact nonempty r (by simp [mem])
  | case4 r₁ r₂ rs gap ih =>
    rw [coalesce, if_neg gap, mem_cons] at mem
    rcases mem with rfl | mem
    · exact nonempty r (mem_cons_self ..)
    · exact ih (fun r' mem' => nonempty r' (mem_cons_of_mem _ mem')) mem

theorem length_coalesce_le (rs : List Range) : (coalesce rs).length ≤ rs.length := by
  induction rs using coalesce.induct with
  | case1 => exact Nat.le_refl _
  | case2 => exact Nat.le_refl _
  | case3 r r' rs touch =>
    rw [coalesce, if_pos touch]
    simp
  | case4 r r' rs gap ih =>
    rw [coalesce, if_neg gap]
    simpa using ih

/-- Two lists of ranges that are apart, the second after the first, touch in one place at most, and
`coalesce` closes it. -/
theorem apart_coalesce (apart₁ : Apart l₁) (apart₂ : Apart l₂) (nonempty : ∀ r ∈ l₂, 0 < r.size)
    (order : ∀ r ∈ l₁, ∀ r' ∈ l₂, r.stop ≤ r'.start) : Apart (coalesce (l₁ ++ l₂)) := by
  induction l₁ with
  | nil =>
    rw [nil_append, coalesce_of_apart apart₂]
    exact apart₂
  | cons r l₁ ih =>
    rw [apart_cons] at apart₁
    have rest := ih apart₁.2 fun r' mem => order r' (mem_cons_of_mem _ mem)
    have last := order r (mem_cons_self ..)
    cases l₁ with
    | cons r' l₁ =>
      have gap := apart₁.1 r' (mem_cons_self ..)
      rw [cons_append, cons_append, coalesce, if_neg (Nat.ne_of_lt gap)]
      rw [apart_cons]
      refine ⟨?_, rest⟩
      intro later mem
      obtain ⟨old, mem', same⟩ := start_of_mem_coalesce mem
      rw [← cons_append, mem_append] at mem'
      rw [← same]
      rcases mem' with front | back
      · exact apart₁.1 old front
      · have next := order r' (by simp) old back
        unfold Range.stop at gap next ⊢
        omega
    | nil =>
      cases l₂ with
      | nil => exact Apart.single r
      | cons r' l₂ =>
        have touching := last r' (mem_cons_self ..)
        rw [apart_cons] at apart₂
        rw [singleton_append, coalesce]
        split_ifs with touch
        · rw [apart_cons]
          refine ⟨fun later mem => ?_, apart₂.2⟩
          have next := apart₂.1 later mem
          unfold Range.stop at *
          dsimp only
          omega
        · rw [coalesce_of_apart (apart_cons.mpr apart₂), apart_cons]
          refine ⟨fun later mem => ?_, apart_cons.mpr apart₂⟩
          rw [mem_cons] at mem
          rcases mem with rfl | mem
          · omega
          · have next := apart₂.1 later mem
            unfold Range.stop at *
            omega

end Order

end Darwin.Lib
