import Darwin.Ipc.Splay.Basic
import Mathlib.Data.List.Pairwise
import Mathlib.Order.Bounds.Basic

/-!
# The order of a splay tree

The names of a splay tree, read from left to right through its three trees, stay the same through a
splay, and the splay focuses the trees on a name: the left tree is below it, the right tree above
it, and it is at the root of the middle tree or nowhere.  A list of entries whose names increase
stands for a map from names to entries.

## Main results

* `toList_primLookup`, `primLookup_focused`: what a splay keeps and what it establishes
* `Denotes.insert`, `erase`, `cut`, `append`, `isGreatest`, `isLeast`: increasing lists as maps
-/

namespace Darwin.Ipc.Splay

open List Option

variable {κ α : Type*}

/-! ## In order -/

/-- The names of a tree with their entries, in order. -/
def Tree.toList : Tree κ α → List (κ × α)
  | .nil => []
  | .node lchild name entry rchild => lchild.toList ++ (name, entry) :: rchild.toList

/-- The names of a left tree, in order. -/
def leftList : List (LeftEntry κ α) → List (κ × α)
  | [] => []
  | last :: rest => leftList rest ++ (last.lchild.toList ++ [(last.name, last.entry)])

/-- The names of a right tree, in order. -/
def rightList : List (RightEntry κ α) → List (κ × α)
  | [] => []
  | last :: rest => (last.name, last.entry) :: (last.rchild.toList ++ rightList rest)

/-- The names of the three trees, in order. -/
def Fragments.toList (parts : Fragments κ α) : List (κ × α) :=
  leftList parts.left ++ (parts.tree.toList ++ rightList parts.right)

/-- The names of a splay tree, in order. -/
def SplayState.contents (s : SplayState κ α) : List (κ × α) :=
  if s.tree.isNode then s.toFragments.toList else []

@[simp] theorem toList_plugLeft (left : List (LeftEntry κ α)) (tree : Tree κ α) :
    (plugLeft left tree).toList = leftList left ++ tree.toList := by
  induction left generalizing tree with
  | nil => rfl
  | cons last rest ih => simp [plugLeft, leftList, ih, Tree.toList]

@[simp] theorem toList_plugRight (right : List (RightEntry κ α)) (tree : Tree κ α) :
    (plugRight right tree).toList = tree.toList ++ rightList right := by
  induction right generalizing tree with
  | nil => simp [plugRight, rightList]
  | cons last rest ih => simp [plugRight, rightList, ih, Tree.toList]

theorem isNode_iff {tree : Tree κ α} : tree.isNode = true ↔ tree.toList ≠ [] := by
  cases tree <;> simp [Tree.isNode, Tree.toList]

theorem eq_nil_of_toList {tree : Tree κ α} (empty : tree.toList = []) : tree = .nil := by
  cases tree with
  | nil => rfl
  | node lchild name entry rchild => simp [Tree.toList] at empty

@[simp] theorem toList_primAssemble {parts : Fragments κ α} (some' : parts.tree.isNode = true) :
    (primAssemble parts).toList = parts.toList := by
  unfold primAssemble Fragments.toList
  cases tree : parts.tree with
  | nil => simp [tree, Tree.isNode] at some'
  | node lchild rname entry rchild => simp [Tree.toList]

section Splaying

variable [LinearOrder κ] {name : κ}

/-- A splay keeps the names and their order. -/
theorem toList_primLookup (name : κ) (tree : Tree κ α) (left : List (LeftEntry κ α))
    (right : List (RightEntry κ α)) :
    (primLookup name tree left right).toList =
      leftList left ++ (tree.toList ++ rightList right) := by
  fun_induction primLookup name tree left right <;>
    simp_all [Fragments.toList, Tree.toList, leftList, rightList]

theorem isNode_primLookup (name : κ) (tree : Tree κ α) (left : List (LeftEntry κ α))
    (right : List (RightEntry κ α)) :
    (primLookup name tree left right).tree.isNode = tree.isNode := by
  fun_induction primLookup name tree left right <;> simp_all [Tree.isNode]

/-- The names are strictly increasing. -/
def Increasing (names : List (κ × α)) : Prop :=
  names.Pairwise fun first second => first.1 < second.1

/-- The three trees are focused on a name: the left tree is below it and the right tree above it,
and it is at the root, or else the root has no child on its side. -/
structure Focused (name : κ) (parts : Fragments κ α) : Prop where
  left : ∀ x ∈ leftList parts.left, x.1 < name
  right : ∀ x ∈ rightList parts.right, name < x.1
  root : ∀ lchild rname entry rchild, parts.tree = .node lchild rname entry rchild →
    name = rname ∨ name < rname ∧ lchild = .nil ∨ rname < name ∧ rchild = .nil

variable {lchild rchild : Tree κ α} {entry : α}

theorem increasing_node {rname : κ} :
    Increasing (Tree.node lchild rname entry rchild).toList ↔
      (Increasing lchild.toList ∧ ∀ x ∈ lchild.toList, x.1 < rname) ∧
        (Increasing rchild.toList ∧ ∀ x ∈ rchild.toList, rname < x.1) := by
  simp only [Increasing, Tree.toList, pairwise_append, pairwise_cons, mem_cons, forall_eq_or_imp]
  constructor
  · rintro ⟨below, ⟨above, sorted⟩, across⟩
    exact ⟨⟨below, fun x mem => (across x mem).1⟩, sorted, above⟩
  · rintro ⟨⟨below, less⟩, sorted, above⟩
    exact ⟨below, ⟨above, sorted⟩, fun x mem =>
      ⟨less x mem, fun y mem' => (less x mem).trans (above y mem')⟩⟩

theorem above_cons {rname : κ} {right : List (RightEntry κ α)}
    (root : name < rname) (child : ∀ x ∈ rchild.toList, rname < x.1)
    (above : ∀ x ∈ rightList right, name < x.1) :
    ∀ x ∈ rightList (⟨rname, entry, rchild⟩ :: right), name < x.1 := by
  intro x mem
  rcases mem_cons.mp mem with rfl | mem
  · exact root
  · rcases mem_append.mp mem with mem | mem
    · exact root.trans (child x mem)
    · exact above x mem

theorem below_cons {lname : κ} {left : List (LeftEntry κ α)}
    (root : lname < name) (child : ∀ x ∈ lchild.toList, x.1 < lname)
    (below : ∀ x ∈ leftList left, x.1 < name) :
    ∀ x ∈ leftList (⟨lchild, lname, entry⟩ :: left), x.1 < name := by
  intro x mem
  rcases mem_append.mp mem with mem | mem
  · exact below x mem
  rcases mem_append.mp mem with mem | mem
  · exact (child x mem).trans root
  · rw [mem_singleton.mp mem]
    exact root

/-- A splay focuses the tree on the name. -/
theorem primLookup_focused (name : κ) (tree : Tree κ α) (left : List (LeftEntry κ α))
    (right : List (RightEntry κ α)) (sorted : Increasing tree.toList)
    (below : ∀ x ∈ leftList left, x.1 < name) (above : ∀ x ∈ rightList right, name < x.1) :
    Focused name (primLookup name tree left right) := by
  fun_induction primLookup name tree left right with
  | case1 left right => exact ⟨below, above, nofun⟩
  | case2 lchild entry rchild left right =>
    refine ⟨below, above, fun lchild' rname entry' rchild' same => ?_⟩
    cases same
    exact .inl rfl
  | case3 tname entry rchild left right apart less =>
    refine ⟨below, above, fun lchild' rname entry' rchild' same => ?_⟩
    cases same
    exact .inr (.inl ⟨less, rfl⟩)
  | case4 tname entry rchild left right apart less ll lname lentry lr down ih =>
    -- zig-zig: the left child comes up and goes to the right tree with the root below it
    obtain ⟨⟨child, childLess⟩, -, rootLess⟩ := increasing_node.mp sorted
    obtain ⟨⟨inner, -⟩, -, lnameLess⟩ := increasing_node.mp child
    refine ih inner below (above_cons down.1 ?_ above)
    intro x mem
    have lnameRoot : lname < tname := childLess (lname, lentry) (by simp [Tree.toList])
    rcases mem_append.mp mem with mem | mem
    · exact lnameLess x mem
    · rcases mem_cons.mp mem with rfl | mem
      · exact lnameRoot
      · exact lnameRoot.trans (rootLess x mem)
  | case5 tname entry rchild left right apart less ll lname lentry lr notDown across ih =>
    -- zig-zag: the left child goes to the left tree and the root to the right one
    obtain ⟨⟨child, -⟩, -, rootLess⟩ := increasing_node.mp sorted
    obtain ⟨⟨-, lessLname⟩, inner, -⟩ := increasing_node.mp child
    exact ih inner (below_cons across.1 lessLname below) (above_cons less rootLess above)
  | case6 tname entry rchild left right apart less ll lname lentry lr notDown notAcross ih =>
    -- zig: the left child is the name's, or has no child on its side
    obtain ⟨⟨child, -⟩, -, rootLess⟩ := increasing_node.mp sorted
    exact ih child below (above_cons less rootLess above)
  | case7 lchild tname entry left right apart notLess =>
    refine ⟨below, above, fun lchild' rname entry' rchild' same => ?_⟩
    cases same
    exact .inr (.inr ⟨lt_of_le_of_ne (not_lt.mp notLess) (Ne.symm apart), rfl⟩)
  | case8 lchild tname entry left right apart notLess rl rname rentry rr down ih =>
    -- the mirror images
    obtain ⟨⟨-, lessRoot⟩, child, childLess⟩ := increasing_node.mp sorted
    obtain ⟨⟨-, lessRname⟩, inner, -⟩ := increasing_node.mp child
    refine ih inner (below_cons down.1 ?_ below) above
    intro x mem
    have rootRname : tname < rname := childLess (rname, rentry) (by simp [Tree.toList])
    rcases mem_append.mp mem with mem | mem
    · exact (lessRoot x mem).trans rootRname
    · rcases mem_cons.mp mem with rfl | mem
      · exact rootRname
      · exact lessRname x mem
  | case9 lchild tname entry left right apart notLess rl rname rentry rr notDown across ih =>
    obtain ⟨⟨-, lessRoot⟩, child, -⟩ := increasing_node.mp sorted
    obtain ⟨⟨inner, -⟩, -, rnameLess⟩ := increasing_node.mp child
    have root := lt_of_le_of_ne (not_lt.mp notLess) (Ne.symm apart)
    exact ih inner (below_cons root lessRoot below) (above_cons across.1 rnameLess above)
  | case10 lchild tname entry left right apart notLess rl rname rentry rr notDown notAcross ih =>
    obtain ⟨⟨-, lessRoot⟩, child, -⟩ := increasing_node.mp sorted
    have root := lt_of_le_of_ne (not_lt.mp notLess) (Ne.symm apart)
    exact ih child (below_cons root lessRoot below) above

end Splaying

/-! ## Increasing lists as maps -/

section Denotes

variable [LinearOrder κ] {name : κ} {entry : α} {below above names : List (κ × α)}
  {m : κ → Option α}

/-- An increasing list of names with entries, and the map that it stands for. -/
structure Denotes (names : List (κ × α)) (m : κ → Option α) : Prop where
  sorted : Increasing names
  mem : ∀ name entry, (name, entry) ∈ names ↔ m name = some entry

theorem denotes_nil : Denotes ([] : List (κ × α)) fun _ => none :=
  ⟨List.Pairwise.nil, by simp⟩

theorem Denotes.eq_none (den : Denotes names m) (absent : ∀ entry, (name, entry) ∉ names) :
    m name = none := by
  rw [eq_none_iff_forall_not_mem]
  exact fun entry same => absent entry ((den.mem name entry).mpr same)

theorem Denotes.eq_fun (den : Denotes ([] : List (κ × α)) m) : m = fun _ => none := by
  funext name
  exact den.eq_none (by simp)

theorem increasing_append :
    Increasing (below ++ above) ↔
      Increasing below ∧ Increasing above ∧ ∀ x ∈ below, ∀ y ∈ above, x.1 < y.1 :=
  pairwise_append

/-- What stands before and after an entry of an increasing list. -/
theorem Denotes.around (den : Denotes (below ++ (name, entry) :: above) m) :
    (∀ x ∈ below, x.1 < name) ∧ ∀ x ∈ above, name < x.1 := by
  obtain ⟨-, cons, across⟩ := increasing_append.mp den.sorted
  exact ⟨fun x mem => across x mem _ mem_cons_self, (pairwise_cons.mp cons).1⟩

theorem Denotes.insert (den : Denotes (below ++ above) m) (name : κ)
    (less : ∀ x ∈ below, x.1 < name) (more : ∀ x ∈ above, name < x.1) (entry : α) :
    Denotes (below ++ (name, entry) :: above) (Function.update m name (some entry)) := by
  obtain ⟨sorted, sorted', across⟩ := increasing_append.mp den.sorted
  refine ⟨increasing_append.mpr ⟨sorted, pairwise_cons.mpr ⟨more, sorted'⟩, ?_⟩, ?_⟩
  · intro x mem y mem'
    rcases mem_cons.mp mem' with rfl | mem'
    · exact less x mem
    · exact across x mem y mem'
  · intro other entry'
    by_cases same : other = name
    · subst same
      rw [Function.update_self, mem_append, mem_cons]
      constructor
      · rintro (mem | mem | mem)
        · exact absurd (less _ mem) (lt_irrefl _)
        · rw [(Prod.mk.inj mem).2]
        · exact absurd (more _ mem) (lt_irrefl _)
      · intro found
        exact .inr (.inl (by rw [some.inj found]))
    · rw [Function.update_of_ne same, ← den.mem]
      simp [same]

theorem Denotes.erase (den : Denotes (below ++ (name, entry) :: above) m) :
    Denotes (below ++ above) (Function.update m name none) := by
  obtain ⟨less, more⟩ := den.around
  obtain ⟨sorted, cons, across⟩ := increasing_append.mp den.sorted
  refine ⟨increasing_append.mpr ⟨sorted, (pairwise_cons.mp cons).2, fun x mem y mem' =>
    across x mem y (mem_cons_of_mem _ mem')⟩, ?_⟩
  intro other entry'
  by_cases same : other = name
  · subst same
    rw [Function.update_self, mem_append]
    constructor
    · rintro (mem | mem)
      · exact absurd (less _ mem) (lt_irrefl _)
      · exact absurd (more _ mem) (lt_irrefl _)
    · exact fun found => by cases found
  · rw [Function.update_of_ne same, ← den.mem]
    simp [same]

/-- Cutting a list at a name cuts the map there. -/
theorem Denotes.cut (den : Denotes (below ++ above) m) (name : κ) (less : ∀ x ∈ below, x.1 < name)
    (more : ∀ x ∈ above, name ≤ x.1) :
    Denotes above (fun n => if name ≤ n then m n else none) ∧
      Denotes below (fun n => if n < name then m n else none) := by
  obtain ⟨sorted, sorted', -⟩ := increasing_append.mp den.sorted
  refine ⟨⟨sorted', fun n e => ?_⟩, sorted, fun n e => ?_⟩
  · by_cases up : name ≤ n
    · rw [if_pos up, ← den.mem, mem_append]
      exact ⟨.inr, fun mem => mem.resolve_left fun mem => absurd (less _ mem) (not_lt.mpr up)⟩
    · rw [if_neg up]
      exact ⟨fun mem => absurd (more _ mem) up, fun found => by cases found⟩
  · by_cases down : n < name
    · rw [if_pos down, ← den.mem, mem_append]
      exact ⟨.inl, fun mem => mem.resolve_right fun mem => absurd (more _ mem) (not_le.mpr down)⟩
    · rw [if_neg down]
      exact ⟨fun mem => absurd (less _ mem) down, fun found => by cases found⟩

theorem Denotes.append {small : κ → Option α} (smaller : Denotes below small)
    (den : Denotes above m)
    (ordered : ∀ first second, (small first).isSome → (m second).isSome → first < second) :
    Denotes (below ++ above) (fun n => (m n).or (small n)) := by
  have across : ∀ x ∈ below, ∀ y ∈ above, x.1 < y.1 := fun x mem y mem' =>
    ordered x.1 y.1 (by rw [(smaller.mem x.1 x.2).mp mem]; rfl)
      (by rw [(den.mem y.1 y.2).mp mem']; rfl)
  refine ⟨increasing_append.mpr ⟨smaller.sorted, den.sorted, across⟩, fun n e => ?_⟩
  rw [mem_append, smaller.mem, den.mem, or_eq_some_iff]
  constructor
  · rintro (found | found)
    · refine .inr ⟨?_, found⟩
      rw [eq_none_iff_forall_ne_some]
      intro other same
      exact lt_irrefl n (ordered n n (by rw [found]; rfl) (by rw [same]; rfl))
    · exact .inl found
  · rintro (found | ⟨-, found⟩)
    · exact .inr found
    · exact .inl found

/-- The greatest name up to a bound. -/
theorem Denotes.isGreatest {bound : κ} (den : Denotes (below ++ (name, entry) :: above) m)
    (le : name ≤ bound) (more : ∀ x ∈ above, bound < x.1) :
    IsGreatest {n | (m n).isSome ∧ n ≤ bound} name := by
  refine ⟨⟨?_, le⟩, ?_⟩
  · rw [(den.mem name entry).mp (by simp)]
    rfl
  rintro n ⟨found, atMost⟩
  obtain ⟨e, found⟩ := isSome_iff_exists.mp found
  rcases mem_append.mp ((den.mem n e).mpr found) with mem | mem
  · exact (den.around.1 _ mem).le
  · rcases mem_cons.mp mem with same | mem
    · exact (Prod.mk.inj same).1.le
    · exact absurd (more _ mem) (not_lt.mpr atMost)

/-- The least name from a bound on. -/
theorem Denotes.isLeast {bound : κ} (den : Denotes (below ++ (name, entry) :: above) m)
    (ge : bound ≤ name) (less : ∀ x ∈ below, x.1 < bound) :
    IsLeast {n | (m n).isSome ∧ bound ≤ n} name := by
  refine ⟨⟨?_, ge⟩, ?_⟩
  · rw [(den.mem name entry).mp (by simp)]
    rfl
  rintro n ⟨found, atLeast⟩
  obtain ⟨e, found⟩ := isSome_iff_exists.mp found
  rcases mem_append.mp ((den.mem n e).mpr found) with mem | mem
  · exact absurd (less _ mem) (not_lt.mpr atLeast)
  · rcases mem_cons.mp mem with same | mem
    · exact (Prod.mk.inj same).1.ge
    · exact (den.around.2 _ mem).le

theorem Denotes.none_of {p : κ → Prop} (den : Denotes names m) (outside : ∀ x ∈ names, ¬ p x.1) :
    {n | (m n).isSome ∧ p n} = ∅ := by
  rw [Set.eq_empty_iff_forall_notMem]
  rintro n ⟨found, holds⟩
  obtain ⟨e, found⟩ := isSome_iff_exists.mp found
  exact outside _ ((den.mem n e).mpr found) holds

end Denotes

end Darwin.Ipc.Splay
