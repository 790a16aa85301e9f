import Mathlib.Data.List.Basic

/-!
# Ordered lists of disjoint segments

A list of objects, each with a start and a stop, is in order between `lo` and `hi` if the segments
are not empty and each begins where the one before it has stopped, or later.  At most one of them
covers a point.
-/

namespace Darwin.Lib

variable {α : Type*} (start stop : α → ℕ)

/-- The segments are not empty, follow each other without overlap, and lie between `lo` and `hi`. -/
def Segments : ℕ → List α → ℕ → Prop
  | _, [], _ => True
  | lo, e :: l, hi => lo ≤ start e ∧ start e < stop e ∧ stop e ≤ hi ∧ Segments (stop e) l hi

/-- Where the last segment stops. -/
def lastStop (lo : ℕ) (l : List α) : ℕ := l.foldl (fun _ e => stop e) lo

/-- The segment that covers a point. -/
def covering (l : List α) (a : ℕ) : Option α :=
  l.find? fun e => decide (start e ≤ a) && decide (a < stop e)

variable {start stop} {lo lo' hi a : ℕ} {l l₁ l₂ : List α} {e : α}

@[simp]
theorem lastStop_nil (lo : ℕ) : lastStop stop lo [] = lo := rfl

@[simp]
theorem lastStop_cons (lo : ℕ) (e : α) (l : List α) :
    lastStop stop lo (e :: l) = lastStop stop (stop e) l := rfl

theorem lastStop_concat (lo : ℕ) (l : List α) (e : α) : lastStop stop lo (l ++ [e]) = stop e := by
  rw [lastStop, List.foldl_append]
  rfl

theorem segments_append :
    Segments start stop lo (l₁ ++ l₂) hi ↔
      Segments start stop lo l₁ hi ∧ Segments start stop (lastStop stop lo l₁) l₂ hi := by
  induction l₁ generalizing lo with
  | nil => simp [Segments]
  | cons e l ih => simp only [List.cons_append, Segments, ih, lastStop_cons, and_assoc]

variable (segments : Segments start stop lo l hi)

include segments

theorem Segments.weaken (le : lo' ≤ lo) :
    Segments start stop lo' l hi := by
  cases l with
  | nil => trivial
  | cons e l => exact ⟨Nat.le_trans le segments.1, segments.2⟩

/-- Every segment lies inside of the bounds. -/
theorem Segments.bounds (mem : e ∈ l) :
    lo ≤ start e ∧ start e < stop e ∧ stop e ≤ hi := by
  induction l generalizing lo with
  | nil => cases mem
  | cons d l ih =>
    obtain ⟨first, order, last, rest⟩ := segments
    rcases List.mem_cons.mp mem with rfl | mem
    · exact ⟨first, order, last⟩
    · have later := ih rest mem
      exact ⟨by omega, later.2⟩

/-- A list whose segments all begin after a point may begin there. -/
theorem Segments.after (later : ∀ e ∈ l, a ≤ start e) :
    Segments start stop a l hi := by
  cases l with
  | nil => trivial
  | cons e l => exact ⟨later e List.mem_cons_self, segments.2⟩

omit segments

theorem lastStop_le (le : lo ≤ a) (earlier : ∀ e ∈ l, stop e ≤ a) : lastStop stop lo l ≤ a := by
  induction l generalizing lo with
  | nil => exact le
  | cons e l ih =>
    exact ih (earlier e List.mem_cons_self) fun d mem => earlier d (List.mem_cons_of_mem e mem)

theorem Segments.le_lastStop (segments : Segments start stop lo l hi) :
    lo ≤ lastStop stop lo l := by
  induction l generalizing lo with
  | nil => exact Nat.le_refl lo
  | cons e l ih =>
    obtain ⟨first, order, -, rest⟩ := segments
    have := ih rest
    rw [lastStop_cons]
    omega

/-- Every segment stops where the last one does, or before. -/
theorem Segments.stop_le_lastStop (segments : Segments start stop lo l hi) (mem : e ∈ l) :
    stop e ≤ lastStop stop lo l := by
  induction l generalizing lo with
  | nil => cases mem
  | cons d l ih =>
    obtain ⟨-, -, -, rest⟩ := segments
    rcases List.mem_cons.mp mem with rfl | mem
    · exact rest.le_lastStop
    · exact ih rest mem

theorem covering_append (l₁ l₂ : List α) (a : ℕ) :
    covering start stop (l₁ ++ l₂) a =
      (covering start stop l₁ a).or (covering start stop l₂ a) := by
  rw [covering, covering, covering, List.find?_append]

theorem covering_cons_of_inside (low : start e ≤ a) (high : a < stop e) (l : List α) :
    covering start stop (e :: l) a = some e := by
  rw [covering, List.find?_cons_of_pos]
  simp [low, high]

theorem covering_cons_of_outside (outside : ¬ (start e ≤ a ∧ a < stop e)) (l : List α) :
    covering start stop (e :: l) a = covering start stop l a := by
  rw [covering, covering, List.find?_cons_of_neg]
  simpa using outside

theorem covering_eq_none (outside : ∀ e ∈ l, ¬ (start e ≤ a ∧ a < stop e)) :
    covering start stop l a = none := by
  rw [covering, List.find?_eq_none]
  intro e mem
  simpa using outside e mem

/-- The segments before a point do not cover it. -/
theorem covering_of_stop_le (earlier : ∀ e ∈ l, stop e ≤ a) : covering start stop l a = none :=
  covering_eq_none fun e mem covers => absurd covers.2 (by have := earlier e mem; omega)

/-- The segments after a point do not cover it. -/
theorem covering_of_lt_start (later : ∀ e ∈ l, a < start e) : covering start stop l a = none :=
  covering_eq_none fun e mem covers => absurd covers.1 (by have := later e mem; omega)

theorem covering_some (found : covering start stop l a = some e) :
    e ∈ l ∧ start e ≤ a ∧ a < stop e := by
  rw [covering] at found
  refine ⟨List.mem_of_find?_eq_some found, ?_⟩
  simpa using List.find?_some found

end Darwin.Lib
