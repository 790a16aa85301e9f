import Mathlib.Data.List.Nodup
import Mathlib.Data.List.Perm.Basic

/-!
# Lists of entries with distinct keys

A finite map kept as a list of entries, each with a key.  What an insertion, a removal or a
replacement does is stated up to the order of the list.
-/

namespace Darwin.Lib

open List

variable {α κ : Type*} (key : α → κ)

/-- No two entries have the same key. -/
def DistinctKeys (l : List α) : Prop := (l.map key).Nodup

/-- An entry is put before the first one that it precedes. -/
def insertBefore (before : α → α → Bool) (a : α) : List α → List α
  | [] => [a]
  | b :: l => if before a b then a :: b :: l else b :: insertBefore before a l

section Keys

variable {key} {l l' : List α} {a b : α}

theorem DistinctKeys.perm (distinct : DistinctKeys key l) (perm : l.Perm l') : DistinctKeys key l' :=
  (perm.map key).nodup_iff.mp distinct

theorem DistinctKeys.eq_of_key (distinct : DistinctKeys key l) (mem : a ∈ l) (inside' : b ∈ l)
    (same : key a = key b) : a = b :=
  inj_on_of_nodup_map distinct mem inside' same

theorem distinctKeys_cons :
    DistinctKeys key (a :: l) ↔ (∀ b ∈ l, key b ≠ key a) ∧ DistinctKeys key l := by
  rw [DistinctKeys, map_cons, nodup_cons, DistinctKeys]
  refine and_congr_left fun _ => ?_
  simp only [mem_map, not_exists, not_and, ne_eq]

theorem perm_insertBefore (before : α → α → Bool) (a : α) (l : List α) :
    (insertBefore before a l).Perm (a :: l) := by
  induction l with
  | nil => exact List.Perm.refl _
  | cons b l ih =>
    rw [insertBefore]
    split_ifs
    · exact List.Perm.refl _
    · exact (ih.cons b).trans (List.Perm.swap a b l)

variable [DecidableEq κ]

/-- An entry is found by its key, and by no other one. -/
theorem find_eq_some_iff (distinct : DistinctKeys key l) (k : κ) :
    l.find? (fun b => key b = k) = some a ↔ a ∈ l ∧ key a = k := by
  constructor
  · intro found
    exact ⟨mem_of_find?_eq_some found, by simpa using List.find?_some found⟩
  rintro ⟨mem, rfl⟩
  cases found : l.find? fun b => key b = key a with
  | none =>
    rw [List.find?_eq_none] at found
    exact absurd (by simp) (found a mem)
  | some b =>
    have same : key b = key a := by simpa using List.find?_some found
    rw [distinct.eq_of_key (mem_of_find?_eq_some found) mem same]

theorem find_eq_none_iff (l : List α) (k : κ) :
    l.find? (fun b => key b = k) = none ↔ ∀ b ∈ l, key b ≠ k := by
  rw [List.find?_eq_none]
  simp

/-- An entry is the only one that a removal by its key takes out. -/
theorem perm_filter_key (distinct : DistinctKeys key l) (mem : a ∈ l) :
    l.Perm (a :: l.filter fun b => key b ≠ key a) := by
  induction l with
  | nil => cases mem
  | cons b l ih =>
    rw [distinctKeys_cons] at distinct
    rcases mem_cons.mp mem with rfl | mem
    · have others : (l.filter fun b => key b ≠ key a) = l := by
        refine filter_eq_self.mpr fun b member => ?_
        simpa using distinct.1 b member
      rw [filter_cons_of_neg (by simp), others]
    · have other : key b ≠ key a := fun same => distinct.1 a mem same.symm
      rw [filter_cons_of_pos (by simpa using other)]
      exact ((ih distinct.2 mem).cons b).trans (List.Perm.swap a b _)

/-- A replacement of an entry by one with the same key. -/
theorem perm_replace_key (distinct : DistinctKeys key l) (mem : a ∈ l) (b : α) :
    (l.map fun c => if key c = key a then b else c).Perm (b :: l.filter fun c => key c ≠ key a) := by
  induction l with
  | nil => cases mem
  | cons c l ih =>
    rw [distinctKeys_cons] at distinct
    rcases mem_cons.mp mem with rfl | mem
    · have others : (l.filter fun c => key c ≠ key a) = l := by
        refine filter_eq_self.mpr fun c member => ?_
        simpa using distinct.1 c member
      have unchanged : (l.map fun c => if key c = key a then b else c) = l := by
        refine (map_congr_left fun c member => ?_).trans (map_id l)
        rw [if_neg (distinct.1 c member)]
        rfl
      rw [map_cons, if_pos rfl, unchanged, filter_cons_of_neg (by simp), others]
    · have other : key c ≠ key a := fun same => distinct.1 a mem same.symm
      rw [map_cons, if_neg other, filter_cons_of_pos (by simpa using other)]
      exact ((ih distinct.2 mem).cons c).trans (List.Perm.swap b c _)

end Keys

end Darwin.Lib
