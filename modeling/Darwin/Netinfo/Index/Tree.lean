import Mathlib.Order.Compare
import Mathlib.Data.List.Nodup

/-!
# The search trees of `index.c`

An index maps the values of a property to the directories that have them.  It is a binary search
tree, not balanced, whose nodes hold one directory or several.  A node that loses its last directory
is taken out, and one of its subtrees is hung below the other; which one goes by the address of the
node, so that it is a parameter here.

## Main results

* `mem_indexLookup`, `indexInsert_spec`, `indexDelete_spec` - what the operations do to the pairs
  of values and directories
-/

namespace Darwin.Netinfo.Index

open List

/-- `itreenode`. -/
inductive ITree (α : Type*) where
  | nil
  | node (val : α) (dirs : List ℕ) (left right : ITree α)
  deriving DecidableEq, Repr

variable {α : Type*} (cmp : α → α → Ordering)

/-- `adddir`. -/
def adddir (dirs : List ℕ) (which : ℕ) : List ℕ :=
  if which ∈ dirs then dirs else dirs ++ [which]

/-- `_index_insert`. -/
def indexInsert : ITree α → α → ℕ → ITree α
  | .nil, val, which => .node val [which] .nil .nil
  | .node val' dirs left right, val, which =>
    match cmp val val' with
    | .lt => .node val' dirs (indexInsert left val which) right
    | .eq => .node val' (adddir dirs which) left right
    | .gt => .node val' dirs left (indexInsert right val which)

/-- `insertnode`: hangs a subtree into a tree. -/
def insertnode : ITree α → ITree α → ITree α
  | .nil, thenode => thenode
  | .node val dirs left right, .nil => .node val dirs left right
  | .node val dirs left right, .node val' dirs' left' right' =>
    match cmp val' val with
    | .lt => .node val dirs (insertnode left (.node val' dirs' left' right')) right
    | .eq => .node val dirs left right
    | .gt => .node val dirs left (insertnode right (.node val' dirs' left' right'))

/-- `removenode`. -/
def removenode (pickleft : Bool) : ITree α → ITree α
  | .nil => .nil
  | .node _ _ .nil right => right
  | .node _ _ left .nil => left
  | .node _ _ left right => if pickleft then insertnode cmp left right else insertnode cmp right left

/-- `_index_delete`, with `remdir`. -/
def indexDelete (pickleft : Bool) : ITree α → α → ℕ → ITree α
  | .nil, _, _ => .nil
  | .node val' dirs left right, val, which =>
    match cmp val val' with
    | .lt => .node val' dirs (indexDelete pickleft left val which) right
    | .eq =>
      if 1 < dirs.length then .node val' (dirs.erase which) left right
      else removenode cmp pickleft (.node val' dirs left right)
    | .gt => .node val' dirs left (indexDelete pickleft right val which)

/-- `_index_lookup`. -/
def indexLookup : ITree α → α → List ℕ
  | .nil, _ => []
  | .node val' dirs left right, val =>
    match cmp val val' with
    | .lt => indexLookup left val
    | .eq => dirs
    | .gt => indexLookup right val

variable {cmp} {t u left right : ITree α} {val val' v : α} {dirs dirs' : List ℕ} {which i : ℕ}
  {pick : Bool}

/-- The tree has a node with this value and these directories. -/
def ITree.Mem (v : α) (ds : List ℕ) : ITree α → Prop
  | .nil => False
  | .node val dirs left right => v = val ∧ ds = dirs ∨ left.Mem v ds ∨ right.Mem v ds

/-- The tree has this directory for this value. -/
def ITree.Holds (t : ITree α) (v : α) (i : ℕ) : Prop := ∃ ds, t.Mem v ds ∧ i ∈ ds

variable (cmp) in
/-- A search tree, with directories at each node, and none of them twice. -/
def ITree.Ordered : ITree α → Prop
  | .nil => True
  | .node val dirs left right =>
    (∀ v ds, left.Mem v ds → cmp v val = .lt) ∧ (∀ v ds, right.Mem v ds → cmp val v = .lt) ∧
      dirs ≠ [] ∧ dirs.Nodup ∧ left.Ordered ∧ right.Ordered

/-! ## Pairs of values and directories -/

section Pairs

theorem not_holds_nil : ¬ ITree.Holds (.nil : ITree α) v i := fun ⟨_, mem, _⟩ => mem

theorem holds_node : (ITree.node val dirs left right).Holds v i ↔
    v = val ∧ i ∈ dirs ∨ left.Holds v i ∨ right.Holds v i := by
  constructor
  · rintro ⟨ds, ⟨rfl, rfl⟩ | inLeft | inRight, mem⟩
    · exact .inl ⟨rfl, mem⟩
    · exact .inr (.inl ⟨ds, inLeft, mem⟩)
    · exact .inr (.inr ⟨ds, inRight, mem⟩)
  · rintro (⟨rfl, mem⟩ | ⟨ds, inLeft, mem⟩ | ⟨ds, inRight, mem⟩)
    · exact ⟨dirs, .inl ⟨rfl, rfl⟩, mem⟩
    · exact ⟨ds, .inr (.inl inLeft), mem⟩
    · exact ⟨ds, .inr (.inr inRight), mem⟩

theorem mem_adddir : i ∈ adddir dirs which ↔ i ∈ dirs ∨ i = which := by
  unfold adddir
  by_cases there : which ∈ dirs
  · rw [if_pos there]
    constructor
    · exact .inl
    · rintro (old | rfl)
      · exact old
      · exact there
  · rw [if_neg there, mem_append, mem_singleton]

theorem nodup_adddir (nodup : dirs.Nodup) : (adddir dirs which).Nodup := by
  unfold adddir
  by_cases there : which ∈ dirs
  · rw [if_pos there]
    exact nodup
  rw [if_neg there]
  exact (nodup_append.mpr ⟨nodup, nodup_singleton _, by
    rintro a old b new rfl
    rw [mem_singleton.mp new] at old
    exact there old⟩)

end Pairs

section Order

variable [Std.TransCmp cmp] [Std.LawfulEqCmp cmp]

omit [Std.LawfulEqCmp cmp] in
theorem ne_of_lt (lt : cmp val val' = .lt) : val ≠ val' := by
  rintro rfl
  have self : cmp val val = .eq := Std.ReflCmp.compare_self
  rw [self] at lt
  cases lt

theorem mem_indexLookup (ordered : t.Ordered cmp) : i ∈ indexLookup cmp t v ↔ t.Holds v i := by
  induction t with
  | nil => exact iff_of_false not_mem_nil not_holds_nil
  | node val dirs left right ihLeft ihRight =>
    obtain ⟨less, greater, -, -, orderedLeft, orderedRight⟩ := ordered
    rw [indexLookup, holds_node]
    cases compared : cmp v val with
    | lt =>
      rw [ihLeft orderedLeft]
      constructor
      · exact fun inLeft => .inr (.inl inLeft)
      rintro (⟨rfl, -⟩ | inLeft | ⟨ds, inRight, -⟩)
      · exact absurd rfl (ne_of_lt compared)
      · exact inLeft
      · have both := Std.TransCmp.lt_trans (greater v ds inRight) compared
        exact absurd rfl (ne_of_lt both)
    | eq =>
      obtain rfl := Std.LawfulEqCmp.eq_of_compare compared
      constructor
      · exact fun mem => .inl ⟨rfl, mem⟩
      rintro (⟨-, mem⟩ | ⟨ds, inLeft, -⟩ | ⟨ds, inRight, -⟩)
      · exact mem
      · exact absurd rfl (ne_of_lt (less v ds inLeft))
      · exact absurd rfl (ne_of_lt (greater v ds inRight))
    | gt =>
      have compared' : cmp val v = .lt := Std.OrientedCmp.gt_iff_lt.mp compared
      rw [ihRight orderedRight]
      constructor
      · exact fun inRight => .inr (.inr inRight)
      rintro (⟨rfl, -⟩ | ⟨ds, inLeft, -⟩ | inRight)
      · exact absurd rfl (ne_of_lt compared')
      · have both := Std.TransCmp.lt_trans (less v ds inLeft) compared'
        exact absurd rfl (ne_of_lt both)
      · exact inRight

omit [Std.TransCmp cmp] [Std.LawfulEqCmp cmp] in
theorem nodup_indexLookup (ordered : t.Ordered cmp) : (indexLookup cmp t v).Nodup := by
  induction t with
  | nil => exact nodup_nil
  | node val dirs left right ihLeft ihRight =>
    obtain ⟨-, -, -, nodup, orderedLeft, orderedRight⟩ := ordered
    rw [indexLookup]
    cases cmp v val with
    | lt => exact ihLeft orderedLeft
    | eq => exact nodup
    | gt => exact ihRight orderedRight

omit [Std.TransCmp cmp] [Std.LawfulEqCmp cmp] in
/-- The values of the tree afterwards are those before and the new one. -/
theorem mem_indexInsert {ds : List ℕ} (mem : (indexInsert cmp t val which).Mem v ds) :
    (∃ ds', t.Mem v ds') ∨ v = val := by
  induction t with
  | nil =>
    rcases mem with ⟨same, -⟩ | none | none
    · exact .inr same
    · exact none.elim
    · exact none.elim
  | node val' dirs left right ihLeft ihRight =>
    rw [indexInsert] at mem
    cases compared : cmp val val' with
    | lt =>
      rw [compared] at mem
      rcases mem with here | inLeft | inRight
      · exact .inl ⟨ds, .inl here⟩
      · rcases ihLeft inLeft with ⟨ds', old⟩ | new
        · exact .inl ⟨ds', .inr (.inl old)⟩
        · exact .inr new
      · exact .inl ⟨ds, .inr (.inr inRight)⟩
    | eq =>
      rw [compared] at mem
      rcases mem with ⟨rfl, -⟩ | inLeft | inRight
      · exact .inl ⟨dirs, .inl ⟨rfl, rfl⟩⟩
      · exact .inl ⟨ds, .inr (.inl inLeft)⟩
      · exact .inl ⟨ds, .inr (.inr inRight)⟩
    | gt =>
      rw [compared] at mem
      rcases mem with here | inLeft | inRight
      · exact .inl ⟨ds, .inl here⟩
      · exact .inl ⟨ds, .inr (.inl inLeft)⟩
      · rcases ihRight inRight with ⟨ds', old⟩ | new
        · exact .inl ⟨ds', .inr (.inr old)⟩
        · exact .inr new

/-- An insertion adds one pair. -/
theorem indexInsert_spec (ordered : t.Ordered cmp) :
    (indexInsert cmp t val which).Ordered cmp ∧
      ∀ v i, (indexInsert cmp t val which).Holds v i ↔ t.Holds v i ∨ v = val ∧ i = which := by
  induction t with
  | nil =>
    refine ⟨⟨fun _ _ mem => mem.elim, fun _ _ mem => mem.elim, cons_ne_nil _ _,
      nodup_singleton _, trivial, trivial⟩, fun v i => ?_⟩
    rw [indexInsert, holds_node, mem_singleton, or_iff_left (not_or.mpr
      ⟨not_holds_nil, not_holds_nil⟩), or_iff_right not_holds_nil]
  | node val' dirs left right ihLeft ihRight =>
    obtain ⟨less, greater, nonempty, nodup, orderedLeft, orderedRight⟩ := ordered
    rw [indexInsert]
    cases compared : cmp val val' with
    | lt =>
      obtain ⟨ordered', holds⟩ := ihLeft orderedLeft
      refine ⟨⟨fun v ds mem => ?_, greater, nonempty, nodup, ordered', orderedRight⟩, fun v i => ?_⟩
      · rcases mem_indexInsert mem with ⟨ds', old⟩ | rfl
        · exact less v ds' old
        · exact compared
      · dsimp only
        rw [holds_node, holds_node, holds]
        simp only [or_assoc, or_left_comm, or_comm]
    | eq =>
      obtain rfl := Std.LawfulEqCmp.eq_of_compare compared
      refine ⟨⟨less, greater, ?_, nodup_adddir nodup, orderedLeft, orderedRight⟩, fun v i => ?_⟩
      · exact ne_nil_of_mem (mem_adddir.mpr (.inr rfl))
      · dsimp only
        rw [holds_node, holds_node, mem_adddir]
        tauto
    | gt =>
      obtain ⟨ordered', holds⟩ := ihRight orderedRight
      refine ⟨⟨less, fun v ds mem => ?_, nonempty, nodup, orderedLeft, ordered'⟩, fun v i => ?_⟩
      · rcases mem_indexInsert mem with ⟨ds', old⟩ | rfl
        · exact greater v ds' old
        · exact Std.OrientedCmp.gt_iff_lt.mp compared
      · dsimp only
        rw [holds_node, holds_node, holds]
        simp only [or_left_comm, or_comm]

omit [Std.LawfulEqCmp cmp] in
/-- A tree all of whose values are greater is hung in at the right end, and one all of whose values
are less at the left end. -/
theorem insertnode_spec (ordered : t.Ordered cmp) (ordered' : u.Ordered cmp)
    (apart : (∀ v ds v' ds', t.Mem v ds → u.Mem v' ds' → cmp v v' = .lt) ∨
      ∀ v ds v' ds', t.Mem v ds → u.Mem v' ds' → cmp v' v = .lt) :
    (insertnode cmp t u).Ordered cmp ∧
      ∀ v ds, (insertnode cmp t u).Mem v ds ↔ t.Mem v ds ∨ u.Mem v ds := by
  induction t with
  | nil =>
    rw [insertnode]
    exact ⟨ordered', fun v ds => (or_iff_right id).symm⟩
  | node val dirs left right ihLeft ihRight =>
    cases u with
    | nil =>
      rw [insertnode]
      exact ⟨ordered, fun v ds => (or_iff_left id).symm⟩
    | node val' dirs' left' right' =>
      obtain ⟨less, greater, nonempty, nodup, orderedLeft, orderedRight⟩ := ordered
      rcases apart with apart | apart
      · have compared : cmp val' val = .gt := by
          apply Std.OrientedCmp.gt_iff_lt.mpr
          exact apart val dirs val' dirs' (.inl ⟨rfl, rfl⟩) (.inl ⟨rfl, rfl⟩)
        obtain ⟨hung, mem⟩ := ihRight orderedRight (.inl fun v ds v' ds' inRight inNew =>
          apart v ds v' ds' (.inr (.inr inRight)) inNew)
        rw [insertnode, compared]
        refine ⟨⟨less, fun v ds new => ?_, nonempty, nodup, orderedLeft, hung⟩, fun v ds => ?_⟩
        · rcases (mem v ds).mp new with inRight | inNew
          · exact greater v ds inRight
          · exact apart val dirs v ds (.inl ⟨rfl, rfl⟩) inNew
        · simp only [ITree.Mem] at mem ⊢
          simp only [mem, or_assoc]
      · have compared : cmp val' val = .lt :=
          apart val dirs val' dirs' (.inl ⟨rfl, rfl⟩) (.inl ⟨rfl, rfl⟩)
        obtain ⟨hung, mem⟩ := ihLeft orderedLeft (.inr fun v ds v' ds' inLeft inNew =>
          apart v ds v' ds' (.inr (.inl inLeft)) inNew)
        rw [insertnode, compared]
        refine ⟨⟨fun v ds new => ?_, greater, nonempty, nodup, hung, orderedRight⟩, fun v ds => ?_⟩
        · rcases (mem v ds).mp new with inLeft | inNew
          · exact less v ds inLeft
          · exact apart val dirs v ds (.inl ⟨rfl, rfl⟩) inNew
        · simp only [ITree.Mem] at mem ⊢
          simp only [mem, or_assoc, or_left_comm, or_comm]

omit [Std.LawfulEqCmp cmp] in
/-- Taking out the root leaves both subtrees, wherever they are hung. -/
theorem removenode_spec (ordered : (ITree.node val dirs left right).Ordered cmp) :
    (removenode cmp pick (.node val dirs left right)).Ordered cmp ∧
      ∀ v ds, (removenode cmp pick (.node val dirs left right)).Mem v ds ↔
        left.Mem v ds ∨ right.Mem v ds := by
  obtain ⟨less, greater, -, -, orderedLeft, orderedRight⟩ := ordered
  have apart : ∀ v ds v' ds', left.Mem v ds → right.Mem v' ds' → cmp v v' = .lt :=
    fun v ds v' ds' inLeft inRight =>
      Std.TransCmp.lt_trans (less v ds inLeft) (greater v' ds' inRight)
  cases left with
  | nil =>
    rw [removenode]
    exact ⟨orderedRight, fun v ds => (or_iff_right id).symm⟩
  | node valL dirsL leftL rightL =>
    cases right with
    | nil =>
      rw [removenode]
      · exact ⟨orderedLeft, fun v ds => (or_iff_left id).symm⟩
      · exact fun none => by cases none
    | node valR dirsR leftR rightR =>
      rw [removenode]
      · cases pick with
        | true =>
          rw [if_pos rfl]
          exact insertnode_spec orderedLeft orderedRight (.inl apart)
        | false =>
          rw [if_neg (by decide)]
          obtain ⟨hung, mem⟩ := insertnode_spec orderedRight orderedLeft
            (.inr fun v ds v' ds' inRight inLeft => apart v' ds' v ds inLeft inRight)
          exact ⟨hung, fun v ds => (mem v ds).trans or_comm⟩
      · exact fun none => by cases none
      · exact fun none => by cases none

theorem holds_iff_of_mem_iff {t' : ITree α} (mem : ∀ v ds, t'.Mem v ds ↔ t.Mem v ds ∨ u.Mem v ds) :
    t'.Holds v i ↔ t.Holds v i ∨ u.Holds v i := by
  constructor
  · rintro ⟨ds, found, here⟩
    exact ((mem v ds).mp found).imp (fun old => ⟨ds, old, here⟩) fun old => ⟨ds, old, here⟩
  · rintro (⟨ds, found, here⟩ | ⟨ds, found, here⟩)
    · exact ⟨ds, (mem v ds).mpr (.inl found), here⟩
    · exact ⟨ds, (mem v ds).mpr (.inr found), here⟩

omit [Std.LawfulEqCmp cmp] in
theorem mem_indexDelete {ds : List ℕ} (ordered : t.Ordered cmp)
    (mem : (indexDelete cmp pick t val which).Mem v ds) : ∃ ds', t.Mem v ds' := by
  induction t with
  | nil => exact mem.elim
  | node val' dirs left right ihLeft ihRight =>
    have whole := ordered
    obtain ⟨-, -, -, -, orderedLeft, orderedRight⟩ := ordered
    rw [indexDelete] at mem
    cases compared : cmp val val' with
    | lt =>
      rw [compared] at mem
      rcases mem with here | inLeft | inRight
      · exact ⟨ds, .inl here⟩
      · obtain ⟨ds', old⟩ := ihLeft orderedLeft inLeft
        exact ⟨ds', .inr (.inl old)⟩
      · exact ⟨ds, .inr (.inr inRight)⟩
    | eq =>
      rw [compared] at mem
      dsimp only at mem
      split at mem
      · rcases mem with ⟨rfl, -⟩ | inLeft | inRight
        · exact ⟨dirs, .inl ⟨rfl, rfl⟩⟩
        · exact ⟨ds, .inr (.inl inLeft)⟩
        · exact ⟨ds, .inr (.inr inRight)⟩
      · exact ⟨ds, .inr (((removenode_spec whole).2 v ds).mp mem)⟩
    | gt =>
      rw [compared] at mem
      rcases mem with here | inLeft | inRight
      · exact ⟨ds, .inl here⟩
      · exact ⟨ds, .inr (.inl inLeft)⟩
      · obtain ⟨ds', old⟩ := ihRight orderedRight inRight
        exact ⟨ds', .inr (.inr old)⟩

/-- A deletion takes away one pair, if it is there. -/
theorem indexDelete_spec (ordered : t.Ordered cmp) (there : t.Holds val which) :
    (indexDelete cmp pick t val which).Ordered cmp ∧
      ∀ v i, (indexDelete cmp pick t val which).Holds v i ↔
        t.Holds v i ∧ ¬ (v = val ∧ i = which) := by
  induction t with
  | nil => exact absurd there not_holds_nil
  | node val' dirs left right ihLeft ihRight =>
    have whole := ordered
    obtain ⟨less, greater, nonempty, nodup, orderedLeft, orderedRight⟩ := ordered
    have left_less : ∀ {v i}, left.Holds v i → cmp v val' = .lt :=
      fun ⟨ds, inLeft, _⟩ => less _ ds inLeft
    have right_greater : ∀ {v i}, right.Holds v i → cmp val' v = .lt :=
      fun ⟨ds, inRight, _⟩ => greater _ ds inRight
    rw [indexDelete]
    rw [holds_node] at there
    cases compared : cmp val val' with
    | lt =>
      have other := ne_of_lt compared
      have inLeft : left.Holds val which := by
        rcases there with ⟨same, -⟩ | inLeft | inRight
        · exact absurd same other
        · exact inLeft
        · exact absurd rfl (ne_of_lt (Std.TransCmp.lt_trans (right_greater inRight) compared))
      obtain ⟨ordered', holds⟩ := ihLeft orderedLeft inLeft
      refine ⟨⟨fun v ds mem => ?_, greater, nonempty, nodup, ordered', orderedRight⟩, fun v i => ?_⟩
      · obtain ⟨ds', old⟩ := mem_indexDelete orderedLeft mem
        exact less v ds' old
      rw [holds_node, holds_node, holds]
      constructor
      · rintro (⟨rfl, mem⟩ | ⟨old, differs⟩ | inRight)
        · exact ⟨.inl ⟨rfl, mem⟩, fun same => other same.1.symm⟩
        · exact ⟨.inr (.inl old), differs⟩
        · refine ⟨.inr (.inr inRight), ?_⟩
          rintro ⟨rfl, -⟩
          exact ne_of_lt (Std.TransCmp.lt_trans (right_greater inRight) compared) rfl
      · rintro ⟨here | old | inRight, differs⟩
        · exact .inl here
        · exact .inr (.inl ⟨old, differs⟩)
        · exact .inr (.inr inRight)
    | eq =>
      obtain rfl := Std.LawfulEqCmp.eq_of_compare compared
      have mem : which ∈ dirs := by
        rcases there with ⟨-, mem⟩ | inLeft | inRight
        · exact mem
        · exact absurd rfl (ne_of_lt (left_less inLeft))
        · exact absurd rfl (ne_of_lt (right_greater inRight))
      by_cases several : 1 < dirs.length
      · rw [if_pos several]
        refine ⟨⟨less, greater, ?_, nodup.erase which, orderedLeft, orderedRight⟩, fun v i => ?_⟩
        · intro none
          have length := length_erase_of_mem mem
          rw [none, length_nil] at length
          omega
        · rw [holds_node, holds_node, nodup.mem_erase_iff]
          constructor
          · rintro (⟨rfl, differs, here⟩ | inLeft | inRight)
            · exact ⟨.inl ⟨rfl, here⟩, fun same => differs same.2⟩
            · refine ⟨.inr (.inl inLeft), ?_⟩
              rintro ⟨rfl, -⟩
              exact ne_of_lt (left_less inLeft) rfl
            · refine ⟨.inr (.inr inRight), ?_⟩
              rintro ⟨rfl, -⟩
              exact ne_of_lt (right_greater inRight) rfl
          · rintro ⟨⟨rfl, here⟩ | inLeft | inRight, differs⟩
            · exact .inl ⟨rfl, fun same => differs ⟨rfl, same⟩, here⟩
            · exact .inr (.inl inLeft)
            · exact .inr (.inr inRight)
      · rw [if_neg several]
        -- the node has nothing but the directory that is deleted
        have only : ∀ j ∈ dirs, j = which := by
          intro j mem'
          obtain ⟨a, rfl⟩ : ∃ a, dirs = [a] :=
            length_eq_one_iff.mp (by
              have := length_pos_of_mem mem
              omega)
          rw [mem_singleton.mp mem', mem_singleton.mp mem]
        obtain ⟨ordered', mem'⟩ : (removenode cmp pick (.node val dirs left right)).Ordered cmp ∧
            ∀ v ds, (removenode cmp pick (.node val dirs left right)).Mem v ds ↔
              left.Mem v ds ∨ right.Mem v ds := removenode_spec whole
        refine ⟨ordered', fun v i => ?_⟩
        rw [holds_iff_of_mem_iff mem', holds_node]
        constructor
        · rintro (inLeft | inRight)
          · refine ⟨.inr (.inl inLeft), ?_⟩
            rintro ⟨rfl, -⟩
            exact ne_of_lt (left_less inLeft) rfl
          · refine ⟨.inr (.inr inRight), ?_⟩
            rintro ⟨rfl, -⟩
            exact ne_of_lt (right_greater inRight) rfl
        · rintro ⟨⟨rfl, here⟩ | old, differs⟩
          · exact absurd ⟨rfl, only i here⟩ differs
          · exact old
    | gt =>
      have compared' : cmp val' val = .lt := Std.OrientedCmp.gt_iff_lt.mp compared
      have other := ne_of_lt compared'
      have inRight : right.Holds val which := by
        rcases there with ⟨same, -⟩ | inLeft | inRight
        · exact absurd same.symm other
        · exact absurd rfl (ne_of_lt (Std.TransCmp.lt_trans (left_less inLeft) compared'))
        · exact inRight
      obtain ⟨ordered', holds⟩ := ihRight orderedRight inRight
      refine ⟨⟨less, fun v ds mem => ?_, nonempty, nodup, orderedLeft, ordered'⟩, fun v i => ?_⟩
      · obtain ⟨ds', old⟩ := mem_indexDelete orderedRight mem
        exact greater v ds' old
      rw [holds_node, holds_node, holds]
      constructor
      · rintro (⟨rfl, mem⟩ | inLeft | ⟨old, differs⟩)
        · exact ⟨.inl ⟨rfl, mem⟩, fun same => other same.1⟩
        · refine ⟨.inr (.inl inLeft), ?_⟩
          rintro ⟨rfl, -⟩
          exact ne_of_lt (Std.TransCmp.lt_trans (left_less inLeft) compared') rfl
        · exact ⟨.inr (.inr old), differs⟩
      · rintro ⟨here | inLeft | old, differs⟩
        · exact .inl here
        · exact .inr (.inl inLeft)
        · exact .inr (.inr ⟨old, differs⟩)

end Order

end Darwin.Netinfo.Index
