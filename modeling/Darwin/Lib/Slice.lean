import Mathlib.Data.List.Basic

/-!
# Slices of a table

A table is a function from indices; the entries in use are a slice of it.  The lemmas say how slices
split, which updates they do not see, and what becomes of a slice whose entries are moved by one.
-/

namespace Darwin.Lib

variable {α : Type*} {f g : ℕ → α} {i j k n : ℕ}

/-- The entries of a table from index `i` up to index `n`. -/
def slice (f : ℕ → α) (i n : ℕ) : List α := (List.range' i (n - i)).map f

@[simp] theorem length_slice (f : ℕ → α) (i n : ℕ) : (slice f i n).length = n - i := by
  simp [slice]

@[simp] theorem slice_self (f : ℕ → α) (i : ℕ) : slice f i i = [] := by
  simp [slice]

theorem mem_slice {x : α} : x ∈ slice f i n ↔ ∃ j, i ≤ j ∧ j < n ∧ f j = x := by
  simp only [slice, List.mem_map, List.mem_range'_1]
  constructor
  · rintro ⟨j, ⟨lower, upper⟩, rfl⟩
    exact ⟨j, lower, by omega, rfl⟩
  · rintro ⟨j, lower, upper, rfl⟩
    exact ⟨j, ⟨lower, by omega⟩, rfl⟩

theorem slice_append (lower : i ≤ j) (upper : j ≤ n) :
    slice f i j ++ slice f j n = slice f i n := by
  have length : n - i = (j - i) + (n - j) := by omega
  have joined : List.range' i (j - i) ++ List.range' (i + (j - i)) (n - j) =
      List.range' i ((j - i) + (n - j)) := List.range'_append_1
  have start : i + (j - i) = j := by omega
  rw [start] at joined
  rw [slice, slice, slice, length, ← List.map_append, joined]

theorem slice_cons (mem : i < n) : slice f i n = f i :: slice f (i + 1) n := by
  have length : n - i = (n - (i + 1)) + 1 := by omega
  rw [slice, length, List.range'_succ, List.map_cons, slice]

theorem slice_succ (mem : i ≤ n) : slice f i (n + 1) = slice f i n ++ [f n] := by
  rw [← slice_append mem (Nat.le_succ n), slice_cons (Nat.lt_succ_self n), slice_self]

/-- A slice around one of its entries. -/
theorem slice_split (lower : i ≤ k) (upper : k < n) :
    slice f i n = slice f i k ++ f k :: slice f (k + 1) n := by
  rw [← slice_append lower (Nat.le_of_lt upper), slice_cons upper]

theorem slice_congr (same : ∀ j, i ≤ j → j < n → f j = g j) : slice f i n = slice g i n := by
  apply List.map_congr_left
  intro j mem
  rw [List.mem_range'_1] at mem
  exact same j mem.1 (by omega)

/-- Entries that have all moved up by one. -/
theorem slice_shift (moved : ∀ j, i ≤ j → j < n → g (j + 1) = f j) :
    slice g (i + 1) (n + 1) = slice f i n := by
  have length : n + 1 - (i + 1) = n - i := by omega
  rw [slice, slice, length, List.range'_succ_left, List.map_map]
  apply List.map_congr_left
  intro j mem
  rw [List.mem_range'_1] at mem
  exact moved j mem.1 (by omega)

theorem slice_update_of_lt {x : α} (outside : k < i) :
    slice (Function.update f k x) i n = slice f i n := by
  apply slice_congr
  intro j lower _
  exact Function.update_of_ne (by omega) _ _

theorem slice_update_of_le {x : α} (outside : n ≤ k) :
    slice (Function.update f k x) i n = slice f i n := by
  apply slice_congr
  intro j _ upper
  exact Function.update_of_ne (by omega) _ _

end Darwin.Lib
