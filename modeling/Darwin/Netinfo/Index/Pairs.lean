import Darwin.Netinfo.Index.Patch

/-!
# An index as a set of pairs

The callers of `index.c` mean an index to be a set of pairs of values and directories.  It is one as
long as nobody deletes a pair that is not there and whose value has one other directory:
`_index_delete` takes out the node of a single directory without looking at it.

## Main results

* `shown_iff_spared` - a run of calls shows the set all along exactly if it has no such deletion
-/

namespace Darwin.Netinfo.Index

open List

section Delete

variable {α : Type*} {cmp : α → α → Ordering} {t : ITree α} {val : α} {which d : ℕ} {pick : Bool}

/-- With several directories at the value, or none, a deletion of another one changes nothing. -/
theorem indexDelete_of_not_mem (ordered : t.Ordered cmp) (absent : which ∉ indexLookup cmp t val)
    (not_one : (indexLookup cmp t val).length ≠ 1) : indexDelete cmp pick t val which = t := by
  induction t with
  | nil => rfl
  | node val' dirs left right ihLeft ihRight =>
    obtain ⟨-, -, nonempty, -, orderedLeft, orderedRight⟩ := ordered
    rw [indexLookup] at absent not_one
    rw [indexDelete]
    cases compared : cmp val val' with
    | lt =>
      rw [compared] at absent not_one
      exact congrArg (ITree.node val' dirs · right) (ihLeft orderedLeft absent not_one)
    | eq =>
      rw [compared] at absent not_one
      dsimp only at absent not_one ⊢
      have positive := length_pos_of_ne_nil nonempty
      rw [if_pos (by omega), erase_of_not_mem absent]
    | gt =>
      rw [compared] at absent not_one
      exact congrArg (ITree.node val' dirs left) (ihRight orderedRight absent not_one)

/-- The one directory at the value goes, whichever was meant. -/
theorem indexDelete_of_single (single : indexLookup cmp t val = [d]) :
    indexDelete cmp pick t val which = indexDelete cmp pick t val d := by
  induction t with
  | nil => rfl
  | node val' dirs left right ihLeft ihRight =>
    rw [indexLookup] at single
    rw [indexDelete, indexDelete]
    cases compared : cmp val val' with
    | lt =>
      rw [compared] at single
      exact congrArg (ITree.node val' dirs · right) (ihLeft single)
    | eq =>
      rw [compared] at single
      obtain rfl : dirs = [d] := single
      rfl
    | gt =>
      rw [compared] at single
      exact congrArg (ITree.node val' dirs left) (ihRight single)

end Delete

/-- The calls that change an index.  `pick` is what `pickleft` says if the call removes a node. -/
inductive IndexCall where
  | insert (val : Name) (which : ℕ)
  | insertList (vals : List Name) (which : ℕ)
  | delete (pick : Bool) (val : Name) (which : ℕ)

/-- The index after a call. -/
def IndexCall.next (t : ITree Name) : IndexCall → ITree Name
  | .insert val which => indexInsert ranstrcmp t val which
  | .insertList vals which => indexInsertList t vals which
  | .delete pick val which => indexDelete ranstrcmp pick t val which

/-- Pairs of values and directories. -/
abbrev Pairs := Name → ℕ → Prop

/-- What a call is for. -/
def IndexCall.pairs (p : Pairs) : IndexCall → Pairs
  | .insert val which => fun v i => p v i ∨ v = val ∧ i = which
  | .insertList vals which => fun v i => p v i ∨ v ∈ vals ∧ i = which
  | .delete _ val which => fun v i => p v i ∧ ¬ (v = val ∧ i = which)

/-- The call deletes no pair whose value has one directory, and another. -/
def IndexCall.Spares (p : Pairs) : IndexCall → Prop
  | .delete _ val which => ¬ ∃ d, d ≠ which ∧ ∀ i, p val i ↔ i = d
  | _ => True

/-- The tree is a search tree, with a node for each value, and a lookup gives the directories that
are paired with a value, each of them once. -/
def Shows (t : ITree Name) (p : Pairs) : Prop :=
  t.Ordered ranstrcmp ∧ ∀ v, (indexLookup ranstrcmp t v).Nodup ∧
    ∀ i, i ∈ indexLookup ranstrcmp t v ↔ p v i

/-- The index shows the pairs before and after each of these calls. -/
def Shown : ITree Name → Pairs → List IndexCall → Prop
  | t, p, [] => Shows t p
  | t, p, call :: calls => Shows t p ∧ Shown (call.next t) (call.pairs p) calls

/-- Each of these calls spares the other pairs. -/
def Spared : Pairs → List IndexCall → Prop
  | _, [] => True
  | p, call :: calls => call.Spares p ∧ Spared (call.pairs p) calls

section Runs

variable {t : ITree Name} {p : Pairs} {call : IndexCall} {calls : List IndexCall}

theorem shows_iff : Shows t p ↔ t.Ordered ranstrcmp ∧ ∀ v i, t.Holds v i ↔ p v i := by
  refine and_congr_right fun ordered => forall_congr' fun v => ?_
  rw [and_iff_right (nodup_indexLookup ordered)]
  exact forall_congr' fun i => by rw [mem_indexLookup ordered]

/-- A deletion of a pair that is not there. -/
theorem shows_delete_of_not {pick : Bool} {val : Name} {which : ℕ} (shows_ : Shows t p)
    (absent : ¬ p val which) :
    Shows (indexDelete ranstrcmp pick t val which) p ↔ ¬ ∃ d, d ≠ which ∧ ∀ i, p val i ↔ i = d := by
  have ⟨ordered, lookup⟩ := shows_
  obtain ⟨nodup, mem⟩ := lookup val
  by_cases one : ∃ d, d ≠ which ∧ ∀ i, p val i ↔ i = d
  · refine iff_of_false (fun after => ?_) (not_not_intro one)
    obtain ⟨d, other, only⟩ := one
    have single : indexLookup ranstrcmp t val = [d] := by
      refine (perm_singleton.mp ((perm_ext_iff_of_nodup nodup (nodup_singleton d)).mpr fun i => ?_))
      rw [mem, only, mem_singleton]
    have there : t.Holds val d := (mem_indexLookup ordered).mp (by rw [single]; exact mem_cons_self)
    rw [indexDelete_of_single single] at after
    have gone := ((shows_iff.mp after).2 val d).mpr ((only d).mpr rfl)
    exact (((indexDelete_spec ordered there).2 val d).mp gone).2 ⟨rfl, rfl⟩
  · refine iff_of_true ?_ one
    rw [indexDelete_of_not_mem ordered fun inside => absent ((mem which).mp inside)]
    · exact shows_
    intro length
    obtain ⟨d, single⟩ := length_eq_one_iff.mp length
    refine one ⟨d, ?_, fun i => ?_⟩
    · rintro rfl
      exact absent ((mem d).mp (by rw [single]; exact mem_cons_self))
    · rw [← mem, single, mem_singleton]

/-- What one call does to an index that shows some pairs. -/
theorem Shows.next (shows_ : Shows t p) : Shows (call.next t) (call.pairs p) ↔ call.Spares p := by
  have ⟨ordered, holds⟩ := shows_iff.mp shows_
  cases call with
  | insert val which =>
    obtain ⟨ordered', holds'⟩ := @indexInsert_spec _ ranstrcmp t val which _ _ ordered
    refine iff_of_true (shows_iff.mpr ⟨ordered', fun v i => ?_⟩) trivial
    exact (holds' v i).trans (or_congr_left (holds v i))
  | insertList vals which =>
    obtain ⟨ordered', holds'⟩ := @indexInsertList_spec t vals which ordered
    refine iff_of_true (shows_iff.mpr ⟨ordered', fun v i => ?_⟩) trivial
    exact (holds' v i).trans (or_congr_left (holds v i))
  | delete pick val which =>
    by_cases there : p val which
    · obtain ⟨ordered', holds'⟩ :=
        @indexDelete_spec _ ranstrcmp t val which pick _ _ ordered ((holds val which).mpr there)
      refine iff_of_true (shows_iff.mpr ⟨ordered', fun v i => ?_⟩) ?_
      · exact (holds' v i).trans (and_congr_left fun _ => holds v i)
      · rintro ⟨d, other, only⟩
        exact other ((only which).mp there).symm
    · have same : IndexCall.pairs p (.delete pick val which) = p := by
        funext v i
        refine propext (and_iff_left_of_imp ?_)
        rintro pair ⟨rfl, rfl⟩
        exact there pair
      rw [same]
      exact shows_delete_of_not shows_ there

theorem Shows.shown_iff (shows_ : Shows t p) : Shown t p calls ↔ Spared p calls := by
  induction calls generalizing t p with
  | nil => exact iff_of_true shows_ trivial
  | cons call calls ih =>
    rw [Shown, Spared, and_iff_right shows_, ← shows_.next]
    constructor
    · intro shown
      have after : Shows (call.next t) (call.pairs p) := by
        cases calls with
        | nil => exact shown
        | cons _ _ => exact shown.1
      exact ⟨after, (ih after).mp shown⟩
    · rintro ⟨after, spared⟩
      exact (ih after).mpr spared

/-- From an empty index on, whatever is called: the index is a set of pairs exactly as long as no
deletion hits a pair that is not there and whose value has one other directory. -/
theorem shown_iff_spared (calls : List IndexCall) :
    Shown .nil (fun _ _ => False) calls ↔ Spared (fun _ _ => False) calls :=
  Shows.shown_iff (shows_iff.mpr ⟨trivial, fun _ _ => iff_of_false not_holds_nil id⟩)

/-- The pair of a value and 1 goes with the pair of that value and 2. -/
theorem delete_loses_other : ¬ ∀ calls, Shown .nil (fun _ _ => False) calls := by
  intro shown
  obtain ⟨-, -, -, lookup⟩ := shown [.insert [97] 1, .delete true [97] 2]
  have lost := ((lookup [97]).2 1).mpr ⟨.inr ⟨rfl, rfl⟩, fun same => absurd same.2 (by decide)⟩
  exact absurd lost (by decide)

end Runs

end Darwin.Netinfo.Index
