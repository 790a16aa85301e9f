import Mathlib.Data.Fintype.Card

/-!
# Lists that hold a set

Queues whose elements carry a flag that says whether they are queued: the list has no duplicates and
its members are those with the flag.  The lemmas say how the flag has to change when an element is
removed or added.
-/

namespace Darwin.Lib

variable {P : Type*}

/-- `l` holds exactly the elements with property `member`, each of them once. -/
structure Holds (l : List P) (mem : P → Prop) : Prop where
  nodup : l.Nodup
  mem_iff : ∀ p, p ∈ l ↔ mem p

namespace Holds

variable {l : List P} {mem member' : P → Prop} {m : P}

theorem congr (holds : Holds l mem) (same : ∀ p, mem p ↔ member' p) : Holds l member' where
  nodup := holds.nodup
  mem_iff := fun p => (holds.mem_iff p).trans (same p)

theorem erase [DecidableEq P] (holds : Holds l mem) :
    Holds (l.erase m) (fun p => mem p ∧ p ≠ m) where
  nodup := holds.nodup.erase m
  mem_iff := by
    intro p
    rw [holds.nodup.mem_erase_iff, holds.mem_iff, and_comm]

theorem append (holds : Holds l mem) (absent : ¬ mem m) :
    Holds (l ++ [m]) (fun p => mem p ∨ p = m) where
  nodup := by
    refine List.nodup_append.mpr ⟨holds.nodup, List.nodup_singleton m, ?_⟩
    intro p inside q new same
    obtain rfl := List.mem_singleton.mp new
    exact absent ((holds.mem_iff q).mp (same ▸ inside))
  mem_iff := by
    intro p
    rw [List.mem_append, holds.mem_iff, List.mem_singleton]

theorem cons (holds : Holds l mem) (absent : ¬ mem m) :
    Holds (m :: l) (fun p => mem p ∨ p = m) where
  nodup := List.nodup_cons.mpr ⟨fun inside => absent ((holds.mem_iff m).mp inside), holds.nodup⟩
  mem_iff := by
    intro p
    rw [List.mem_cons, holds.mem_iff, or_comm]

/-- Removing a member shortens the list by one. -/
theorem length_erase [DecidableEq P] (holds : Holds l mem) (present : mem m) :
    ((l.erase m).length : ℤ) = l.length - 1 := by
  have inside : m ∈ l := (holds.mem_iff m).mpr present
  have := List.length_erase_add_one inside
  omega

/-- The length of the list counts the elements with the property. -/
theorem length_eq_card [Fintype P] [DecidablePred mem] (holds : Holds l mem) :
    l.length = (Finset.univ.filter mem).card := by
  classical
  have same : Finset.univ.filter mem = l.toFinset := by
    ext p
    simp [holds.mem_iff]
  rw [same, List.toFinset_card_of_nodup holds.nodup]

/-- A search for something that at most one element satisfies finds it. -/
theorem find?_eq_some_iff (holds : Holds l mem) {wanted : P → Bool}
    (unique : ∀ p q, mem p → mem q → wanted p = true → wanted q = true → p = q) :
    l.find? wanted = some m ↔ mem m ∧ wanted m = true := by
  constructor
  · intro found
    exact ⟨(holds.mem_iff m).mp (List.mem_of_find?_eq_some found), List.find?_some found⟩
  rintro ⟨present, isWanted⟩
  have inside : m ∈ l := (holds.mem_iff m).mpr present
  cases found : l.find? wanted with
  | none => exact absurd isWanted (List.find?_eq_none.mp found m inside)
  | some other =>
    have otherPresent := (holds.mem_iff other).mp (List.mem_of_find?_eq_some found)
    rw [unique other m otherPresent present (List.find?_some found) isWanted]

end Holds

/-! ## Families of lists -/

section Families

variable {K : Type*} [DecidableEq K] {lists : K → List P} {mem member' : P → Prop}
  {key key' : P → K} {m : P} {k : K}

variable (holds : ∀ k, Holds (lists k) fun p => mem p ∧ key p = k)

include holds

/-- Removing an element from the list of its key. -/
theorem holds_family_erase [DecidableEq P] (members : ∀ p, member' p ↔ mem p ∧ p ≠ m)
    (keys : ∀ p, p ≠ m → key' p = key p) (k : K) :
    Holds (Function.update lists (key m) ((lists (key m)).erase m) k)
      fun p => member' p ∧ key' p = k := by
  by_cases here : k = key m
  · subst here
    rw [Function.update_self]
    refine (holds (key m)).erase.congr fun p => ?_
    by_cases moved : p = m
    · simp [moved, members]
    · simp [moved, members, keys]
  · rw [Function.update_of_ne here]
    refine (holds k).congr fun p => ?_
    by_cases moved : p = m
    · simp [moved, members, Ne.symm here]
    · simp [moved, members, keys]

/-- Adding an element to the list of its new key. -/
theorem holds_family_insert {l : List P} (added : Holds l fun p => (mem p ∧ key p = k) ∨ p = m)
    (absent : ¬ mem m) (members : ∀ p, member' p ↔ mem p ∨ p = m)
    (keys : ∀ p, p ≠ m → key' p = key p) (key_eq : key' m = k) (k' : K) :
    Holds (Function.update lists k l k') fun p => member' p ∧ key' p = k' := by
  by_cases here : k' = k
  · subst here
    rw [Function.update_self]
    refine added.congr fun p => ?_
    by_cases moved : p = m
    · simp [moved, members, key_eq]
    · simp [moved, members, keys]
  · rw [Function.update_of_ne here]
    refine (holds k').congr fun p => ?_
    by_cases moved : p = m
    · simp [moved, absent, members, key_eq, Ne.symm here]
    · simp [moved, members, keys]

end Families

/-- One more element has the property. -/
theorem card_filter_add_one [Fintype P] {A B : P → Prop} [DecidablePred A] [DecidablePred B] {m : P}
    (same : ∀ p, p ≠ m → (A p ↔ B p)) (before : ¬ A m) (after : B m) :
    (Finset.univ.filter B).card = (Finset.univ.filter A).card + 1 := by
  classical
  have extended : Finset.univ.filter B = insert m (Finset.univ.filter A) := by
    ext p
    by_cases here : p = m
    · subst here
      simp [after]
    · simp [here, same p here]
  rw [extended, Finset.card_insert_of_notMem (by simpa using before)]

end Darwin.Lib
