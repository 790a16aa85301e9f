import Darwin.Ipc.Splay.Order

/-!
# The splay tree as an ordered map

Every operation on a splay tree takes it from any state that another has left, and does to the map
of its names what it is meant to do.

## Main results

* `Represents.resplay`: the beginning common to the operations
* `step_represents`: one operation, on any of several trees
* `run_represents`: any sequence of operations from empty trees
-/

namespace Darwin.Ipc.Splay

open List SplayState
open Function (update update_of_ne update_self)

variable {κ α : Type*}

/-! ## The operations on the map -/

section Operations

variable [LinearOrder κ] {s small : SplayState κ α} {name : κ}
  {m m' : κ → Option α}

/-- A splay tree stands for a map: its names, in order, do, and its trees are focused on the name of
the last lookup. -/
structure Represents (s : SplayState κ α) (m : κ → Option α) : Prop where
  denotes : Denotes s.contents m
  focused : s.tree.isNode = true → Focused s.name s.toFragments

theorem represents_init (name : κ) : Represents (init name : SplayState κ α)
    fun _ => none :=
  ⟨denotes_nil, fun some' => by cases some'⟩

variable {lchild rchild : Tree κ α} {rname : κ} {entry : α} {parts : Fragments κ α}

theorem represents_single (s : SplayState κ α)
    (whole : s = ⟨⟨.node lchild rname entry rchild, [], []⟩, rname⟩)
    (denotes : Denotes (Tree.node lchild rname entry rchild).toList m) : Represents s m := by
  subst whole
  refine ⟨?_, fun _ => ⟨nofun, nofun, ?_⟩⟩
  · simpa [contents, Tree.isNode, Fragments.toList, leftList, rightList] using denotes
  · intro lchild' rname' entry' rchild' same
    cases same
    exact .inl rfl

/-- A tree put back together. -/
theorem represents_assembled (s : SplayState κ α) {tree : Tree κ α}
    (denotes : Denotes tree.toList m) : Represents (s.assembled tree) m := by
  cases tree with
  | nil => exact ⟨denotes, fun some' => by cases some'⟩
  | node => exact represents_single _ rfl denotes

theorem Represents.empty (rep : Represents s m) (null : s.tree = .nil) : m = fun _ => none := by
  refine Denotes.eq_fun ?_
  have denotes := rep.denotes
  rwa [contents, null] at denotes

/-- Splaying for a name brings up an entry between the trees, focused on the name. -/
theorem Represents.resplay (rep : Represents s m) (some' : s.tree.isNode = true) (name : κ) :
    ∃ lchild rname entry rchild, (s.resplay name).tree = .node lchild rname entry rchild ∧
      Represents (s.resplay name) m ∧ Focused name (s.resplay name).toFragments ∧
      Denotes ((leftList (s.resplay name).left ++ lchild.toList) ++
        (rname, entry) :: (rchild.toList ++ rightList (s.resplay name).right)) m := by
  have together : ∀ t : SplayState κ α, t.tree.isNode = true → Represents t m →
      Focused name t.toFragments →
      ∃ lchild rname entry rchild, t.tree = .node lchild rname entry rchild ∧
        Represents t m ∧ Focused name t.toFragments ∧
        Denotes ((leftList t.left ++ lchild.toList) ++
          (rname, entry) :: (rchild.toList ++ rightList t.right)) m := by
    intro t some' rep focused
    have denotes := rep.denotes
    rw [contents, if_pos some', Fragments.toList] at denotes
    cases tree : t.tree with
    | nil => rw [tree] at some'; cases some'
    | node lchild rname entry rchild =>
      rw [tree] at denotes
      exact ⟨lchild, rname, entry, rchild, rfl, rep, focused, by simpa [Tree.toList] using denotes⟩
  unfold SplayState.resplay
  by_cases same : s.name = name
  · -- the tree is not splayed again for the name it is focused on
    rw [if_neg (not_not.mpr same)]
    exact together s some' rep (same ▸ rep.focused some')
  rw [if_pos same]
  have whole : (primAssemble s.toFragments).toList = s.contents := by
    rw [toList_primAssemble some', contents, if_pos some']
  have still : (primLookup name (primAssemble s.toFragments) [] []).tree.isNode = true := by
    rw [isNode_primLookup, isNode_iff, whole, contents, if_pos some']
    simp [Fragments.toList, isNode_iff.mp some']
  have contents : (primLookup name (primAssemble s.toFragments) [] []).toList = s.contents := by
    rw [toList_primLookup, whole]
    simp [leftList, rightList]
  have focused := primLookup_focused name (primAssemble s.toFragments) [] []
    (whole ▸ rep.denotes.sorted) (forall_mem_nil _) (forall_mem_nil _)
  refine together ⟨primLookup name (primAssemble s.toFragments) [] [], name⟩ still
    ⟨?_, fun _ => focused⟩ focused
  rw [SplayState.contents, if_pos still]
  exact contents ▸ rep.denotes

variable (focused : Focused name parts)

include focused

variable (tree : parts.tree = .node lchild rname entry rchild)

include tree

/-- The name that the trees are focused on is at the root or nowhere. -/
theorem Focused.at_root {e : α} (denotes : Denotes ((leftList parts.left ++ lchild.toList) ++
      (rname, entry) :: (rchild.toList ++ rightList parts.right)) m)
    (found : m name = some e) : name = rname := by
  have root := focused.root _ _ _ _ tree
  rcases mem_append.mp ((denotes.mem name e).mpr found) with mem | mem
  · rcases mem_append.mp mem with mem | mem
    · exact absurd (focused.left _ mem) (lt_irrefl _)
    rcases root with same | ⟨-, rfl⟩ | ⟨less, -⟩
    · exact same
    · simp [Tree.toList] at mem
    · exact absurd less (lt_asymm (denotes.around.1 _ (mem_append_right _ mem)))
  · rcases mem_cons.mp mem with same | mem
    · exact (Prod.mk.inj same).1
    rcases mem_append.mp mem with mem | mem
    · rcases root with same | ⟨less, -⟩ | ⟨-, rfl⟩
      · exact same
      · exact absurd less (lt_asymm (denotes.around.2 _ (mem_append_left _ mem)))
      · simp [Tree.toList] at mem
    · exact absurd (focused.right _ mem) (lt_irrefl _)

theorem Focused.lchild_nil (less : name < rname) : lchild = .nil := by
  rcases focused.root _ _ _ _ tree with same | ⟨-, nil⟩ | ⟨more, -⟩
  · exact absurd same less.ne
  · exact nil
  · exact absurd more (lt_asymm less)

theorem Focused.rchild_nil (more : rname < name) : rchild = .nil := by
  rcases focused.root _ _ _ _ tree with same | ⟨less, -⟩ | ⟨-, nil⟩
  · exact absurd same more.ne'
  · exact absurd less (lt_asymm more)
  · exact nil

variable (denotes : Denotes ((leftList parts.left ++ lchild.toList) ++ (rname, entry) :: (rchild.toList ++ rightList parts.right)) m)

include denotes

/-- What stands before a root at or above the name is below the name. -/
theorem Focused.below (ge : name ≤ rname) :
    ∀ x ∈ leftList parts.left ++ lchild.toList, x.1 < name := by
  intro x mem
  rcases mem_append.mp mem with mem' | mem'
  · exact focused.left x mem'
  rcases focused.root _ _ _ _ tree with rfl | ⟨-, rfl⟩ | ⟨more, -⟩
  · exact denotes.around.1 x mem
  · simp [Tree.toList] at mem'
  · exact absurd more (not_lt.mpr ge)

/-- What stands after a root at or below the name is above the name. -/
theorem Focused.above (le : rname ≤ name) :
    ∀ x ∈ rchild.toList ++ rightList parts.right, name < x.1 := by
  intro x mem
  rcases mem_append.mp mem with mem' | mem'
  · rcases focused.root _ _ _ _ tree with rfl | ⟨more, -⟩ | ⟨-, rfl⟩
    · exact denotes.around.2 x mem
    · exact absurd more (not_lt.mpr le)
    · simp [Tree.toList] at mem'
  · exact focused.right x mem'

omit denotes

omit tree

omit focused

variable (rep : Represents s m)

include rep

theorem lookup_represents (name : κ) :
    (s.lookup name).1 = m name ∧ Represents (s.lookup name).2 m := by
  cases null : s.tree with
  | nil =>
    have empty := rep.empty null
    simp only [SplayState.lookup, null]
    exact ⟨by rw [empty], rep⟩
  | node =>
    have some' : s.tree.isNode = true := by rw [null]; rfl
    obtain ⟨lchild, rname, entry, rchild, tree, rep', focused, denotes⟩ := rep.resplay some' name
    simp only [SplayState.lookup, null, tree]
    refine ⟨?_, rep'⟩
    by_cases same : name = rname
    · rw [if_neg (not_not.mpr same), same, (denotes.mem rname entry).mp (by simp)]
    rw [if_pos same]
    cases found : m name with
    | none => rfl
    | some e => exact absurd (focused.at_root tree denotes found) same

theorem insert_represents (absent : m name = none) (entry : α) :
    Represents (s.insert name entry) (update m name (some entry)) := by
  cases null : s.tree with
  | nil =>
    simp only [SplayState.insert, null]
    refine represents_single _ rfl ?_
    rw [rep.empty null]
    have empty : Denotes ([] ++ [] : List (κ × α)) fun _ => none := denotes_nil
    exact empty.insert name nofun nofun entry
  | node =>
    have some' : s.tree.isNode = true := by rw [null]; rfl
    obtain ⟨lchild, rname, rentry, rchild, tree, -, focused, denotes⟩ := rep.resplay some' name
    have other : name ≠ rname := by
      rintro rfl
      rw [(denotes.mem name rentry).mp (by simp)] at absent
      cases absent
    simp only [SplayState.insert, null, tree, SplayState.rootName]
    by_cases less : name < rname
    · -- the new root takes the old one as its right child
      rw [if_pos less]
      refine represents_single _ rfl ?_
      obtain rfl := focused.lchild_nil tree less
      simp only [Tree.toList, append_nil] at denotes
      have inserted := denotes.insert name focused.left ?_ entry
      · simpa [Tree.toList] using inserted
      intro x mem
      rcases mem_cons.mp mem with rfl | mem
      · exact less
      · exact less.trans (denotes.around.2 x mem)
    · rw [if_neg less]
      refine represents_single _ rfl ?_
      have more := lt_of_le_of_ne (not_lt.mp less) other.symm
      obtain rfl := focused.rchild_nil tree more
      have below := denotes.around.1
      rw [append_cons] at denotes
      have inserted := denotes.insert name ?_ focused.right entry
      · simpa [Tree.toList] using inserted
      intro x mem
      rcases mem_append.mp mem with mem | mem
      · exact (below x mem).trans more
      · rw [mem_singleton.mp mem]
        exact more

theorem split_represents (name : κ) :
    Represents (s.split name).1 (fun n => if name ≤ n then m n else none) ∧
      Represents (s.split name).2 (fun n => if n < name then m n else none) := by
  cases null : s.tree with
  | nil =>
    have empty := rep.empty null
    simp only [split, null, empty, ite_self]
    exact ⟨empty ▸ rep, represents_init _⟩
  | node =>
    have some' : s.tree.isNode = true := by rw [null]; rfl
    obtain ⟨lchild, rname, entry, rchild, tree, -, focused, denotes⟩ := rep.resplay some' name
    simp only [split, null, tree]
    by_cases less : rname < name
    · rw [if_pos less]
      obtain rfl := focused.rchild_nil tree less
      have below := denotes.around.1
      rw [append_cons] at denotes
      obtain ⟨above, small⟩ := denotes.cut name (fun x mem => by
        rcases mem_append.mp mem with mem | mem
        · exact (below x mem).trans less
        · rw [mem_singleton.mp mem]
          exact less) fun x mem => (focused.right x mem).le
      exact ⟨represents_assembled _ (by simpa [Tree.toList] using above),
        represents_assembled _ (by simpa [Tree.toList] using small)⟩
    · -- the root stays in the tree that is given back, which is focused on the name still
      rw [if_neg less]
      have atLeast := not_lt.mp less
      obtain ⟨above, small⟩ := denotes.cut name (focused.below tree denotes atLeast) fun x mem => by
        rcases mem_cons.mp mem with rfl | mem
        · exact atLeast
        · exact atLeast.trans (denotes.around.2 x mem).le
      refine ⟨⟨?_, fun _ => ⟨forall_mem_nil _, focused.right, ?_⟩⟩,
        represents_assembled _ (by simpa using small)⟩
      · simpa [contents, Tree.isNode, Fragments.toList, leftList, Tree.toList]
          using above
      intro lchild' rname' entry' rchild' same
      cases same
      rcases lt_or_eq_of_le atLeast with more | same
      · exact .inr (.inl ⟨more, rfl⟩)
      · exact .inl same

theorem pick_represents :
    (s.pick = none ∧ m = fun _ => none) ∨
      ∃ name entry, s.pick = some (name, entry) ∧ m name = some entry := by
  cases null : s.tree with
  | nil => exact .inl ⟨by simp only [pick, null], rep.empty null⟩
  | node lchild name entry rchild =>
    refine .inr ⟨name, entry, by simp only [pick, null], ?_⟩
    refine (rep.denotes.mem name entry).mp ?_
    simp [contents, null, Tree.isNode, Fragments.toList, Tree.toList]

omit rep

/-! ### With the smallest and the largest name -/

variable [BoundedOrder κ]

/-- Splayed for the largest name, a tree has nothing to the right of its root. -/
theorem primAssemble_top (focused : Focused ⊤ parts)
    (tree : primAssemble parts = .node lchild rname entry rchild)
    (sorted : Increasing (primAssemble parts).toList) : rchild = .nil := by
  obtain ⟨middle, left, right⟩ := parts
  cases middle with
  | nil => cases tree
  | node l n e r =>
    obtain ⟨rfl, rfl, rfl, rfl⟩ := tree
    refine eq_nil_of_toList (eq_nil_iff_forall_not_mem.mpr fun x mem => ?_)
    have above := (increasing_node.mp sorted).2.2 x mem
    rw [toList_plugRight] at mem
    rcases mem_append.mp mem with mem | mem
    · rcases focused.root _ _ _ _ rfl with rfl | ⟨more, -⟩ | ⟨-, rfl⟩
      · exact absurd above not_top_lt
      · exact not_top_lt more
      · simp [Tree.toList] at mem
    · exact not_top_lt (focused.right x mem)

/-- Splayed for the smallest name, a tree has nothing to the left of its root. -/
theorem primAssemble_bot (focused : Focused ⊥ parts)
    (tree : primAssemble parts = .node lchild rname entry rchild)
    (sorted : Increasing (primAssemble parts).toList) : lchild = .nil := by
  obtain ⟨middle, left, right⟩ := parts
  cases middle with
  | nil => cases tree
  | node l n e r =>
    obtain ⟨rfl, rfl, rfl, rfl⟩ := tree
    refine eq_nil_of_toList (eq_nil_iff_forall_not_mem.mpr fun x mem => ?_)
    have below := (increasing_node.mp sorted).1.2 x mem
    rw [toList_plugLeft] at mem
    rcases mem_append.mp mem with mem | mem
    · exact not_lt_bot (focused.left x mem)
    rcases focused.root _ _ _ _ rfl with rfl | ⟨-, rfl⟩ | ⟨less, -⟩
    · exact absurd below not_lt_bot
    · simp [Tree.toList] at mem
    · exact not_lt_bot less

theorem toList_mergeSides {ltree rtree : Tree κ α} (sorted : Increasing ltree.toList) :
    (mergeSides ltree rtree).toList = ltree.toList ++ rtree.toList := by
  unfold mergeSides
  cases lnode : ltree with
  | nil => rfl
  | node =>
    cases rnode : rtree with
    | nil => simp [Tree.toList]
    | node =>
      rw [← lnode, ← rnode]
      have some' : (primLookup ⊤ ltree [] []).tree.isNode = true := by
        rw [isNode_primLookup, lnode]
        rfl
      have whole : (primAssemble (primLookup ⊤ ltree [] [])).toList = ltree.toList := by
        rw [toList_primAssemble some', toList_primLookup]
        simp [leftList, rightList]
      -- splayed for the largest name, the left tree has room for the right one at its root
      have focused := primLookup_focused ⊤ ltree [] [] sorted (forall_mem_nil _)
        (forall_mem_nil _)
      cases tree : primAssemble (primLookup ⊤ ltree [] []) with
      | nil =>
        rw [tree, lnode] at whole
        simp [Tree.toList] at whole
      | node lchild name entry rchild =>
        obtain rfl := primAssemble_top focused tree (whole ▸ sorted)
        rw [tree] at whole
        rw [← whole]
        simp [Tree.toList, lnode, rnode]

theorem delete_represents (rep : Represents s m) (present : (m name).isSome) :
    Represents (s.delete name) (update m name none) := by
  have some' : s.tree.isNode = true := by
    cases null : s.tree with
    | nil =>
      rw [rep.empty null] at present
      cases present
    | node => rfl
  obtain ⟨lchild, rname, entry, rchild, tree, rep', focused, denotes⟩ := rep.resplay some' name
  obtain ⟨e, found⟩ := Option.isSome_iff_exists.mp present
  obtain rfl := focused.at_root tree denotes found
  simp only [delete, tree]
  refine represents_assembled _ ?_
  rw [toList_mergeSides]
  · simpa using denotes.erase
  · rw [toList_plugLeft]
    exact (increasing_append.mp denotes.sorted).1

theorem join_represents (rep : Represents s m) (rep' : Represents small m')
    (ordered : ∀ first second, (m' first).isSome → (m second).isSome → first < second) :
    Represents (s.join small) (fun n => (m n).or (m' n)) := by
  cases snull : small.tree with
  | nil =>
    have empty := rep'.empty snull
    simpa only [join, snull, empty, Option.or_none] using rep
  | node =>
    have some' : small.tree.isNode = true := by rw [snull]; rfl
    have smaller : Denotes (primAssemble small.toFragments).toList m' := by
      rw [toList_primAssemble some']
      have denotes := rep'.denotes
      rwa [contents, if_pos some'] at denotes
    cases null : s.tree with
    | nil =>
      have empty := rep.empty null
      simp only [join, snull, null, empty, Option.none_or]
      exact represents_assembled _ smaller
    | node =>
      have some' : s.tree.isNode = true := by rw [null]; rfl
      obtain ⟨_, _, _, _, tree, -, focused, denotes⟩ := rep.resplay some' ⊥
      have whole : (primAssemble (s.resplay ⊥).toFragments).toList =
          (s.resplay ⊥).toFragments.toList := toList_primAssemble (by rw [tree]; rfl)
      have denotes : Denotes (primAssemble (s.resplay ⊥).toFragments).toList m := by
        rw [whole, Fragments.toList, tree]
        simpa [Tree.toList] using denotes
      simp only [join, snull, null]
      cases root : primAssemble (s.resplay ⊥).toFragments with
      | nil =>
        rw [primAssemble, tree] at root
        cases root
      | node lchild name entry rchild =>
        obtain rfl := primAssemble_bot focused root denotes.sorted
        rw [root] at denotes
        exact represents_assembled _ (smaller.append denotes ordered)

/-- What `ipc_splay_tree_bounds` promises: the tightest bounds on the name, or `~0` and `0`. -/
def TightBounds (m : κ → Option α) (name : κ) (found : κ × κ) : Prop :=
  (IsGreatest {n | (m n).isSome ∧ n ≤ name} found.1 ∨
      {n | (m n).isSome ∧ n ≤ name} = ∅ ∧ found.1 = ⊤) ∧
    (IsLeast {n | (m n).isSome ∧ name ≤ n} found.2 ∨
      {n | (m n).isSome ∧ name ≤ n} = ∅ ∧ found.2 = ⊥)

theorem bounds_represents (rep : Represents s m) (name : κ) :
    TightBounds m name (s.bounds name).1 ∧ Represents (s.bounds name).2 m := by
  cases null : s.tree with
  | nil =>
    have empty := rep.empty null
    simp only [bounds, null]
    exact ⟨⟨.inr ⟨by simp [empty], rfl⟩, .inr ⟨by simp [empty], rfl⟩⟩, rep⟩
  | node =>
    have some' : s.tree.isNode = true := by rw [null]; rfl
    obtain ⟨lchild, rname, entry, rchild, tree, rep', focused, denotes⟩ := rep.resplay some' name
    simp only [bounds, null, tree, rootName]
    refine ⟨⟨?_, ?_⟩, rep'⟩
    · by_cases le : rname ≤ name
      · rw [if_pos le]
        exact .inl (denotes.isGreatest le (focused.above tree denotes le))
      rw [if_neg le]
      have less := not_le.mp le
      obtain rfl := focused.lchild_nil tree less
      have above : ∀ x ∈ (rname, entry) :: (rchild.toList ++ rightList (s.resplay name).right),
          name < x.1 := by
        intro x mem
        rcases mem_cons.mp mem with rfl | mem
        · exact less
        · exact less.trans (denotes.around.2 x mem)
      simp only [Tree.toList, append_nil] at denotes
      -- the lower bound is the root of the left tree, if there is one
      cases left : (s.resplay name).left with
      | nil =>
        rw [left, leftList, nil_append] at denotes
        exact .inr ⟨denotes.none_of (p := (· ≤ name)) fun x mem => not_le.mpr (above x mem), rfl⟩
      | cons last rest =>
        have below := focused.left (last.name, last.entry) (by rw [left]; simp [leftList])
        rw [left, leftList, ← append_assoc, append_assoc, singleton_append] at denotes
        exact .inl (denotes.isGreatest below.le above)
    · by_cases ge : name ≤ rname
      · rw [if_pos ge]
        exact .inl (denotes.isLeast ge (focused.below tree denotes ge))
      rw [if_neg ge]
      have more := not_le.mp ge
      obtain rfl := focused.rchild_nil tree more
      have below : ∀ x ∈ (leftList (s.resplay name).left ++ lchild.toList) ++ [(rname, entry)],
          x.1 < name := by
        intro x mem
        rcases mem_append.mp mem with mem | mem
        · exact (denotes.around.1 x mem).trans more
        · rw [mem_singleton.mp mem]
          exact more
      simp only [Tree.toList, nil_append] at denotes
      rw [append_cons] at denotes
      -- the upper bound is the root of the right tree, if there is one
      cases right : (s.resplay name).right with
      | nil =>
        rw [right, rightList, append_nil] at denotes
        exact .inr ⟨denotes.none_of (p := (name ≤ ·)) fun x mem => not_le.mpr (below x mem), rfl⟩
      | cons last rest =>
        have above := focused.right (last.name, last.entry) (by rw [right]; simp [rightList])
        rw [right, rightList] at denotes
        exact .inl (denotes.isLeast above.le below)

end Operations

/-! ## Runs on several trees -/

section Runs

variable [LinearOrder κ] [BoundedOrder κ] {ι : Type*} [DecidableEq ι]

/-- A call of one of the operations, on trees that are named by `ι`. -/
inductive Call (ι κ α : Type*) where
  | lookup (splay : ι) (name : κ)
  | insert (splay : ι) (name : κ) (entry : α)
  | delete (splay : ι) (name : κ)
  | split (splay : ι) (name : κ) (small : ι)
  | join (splay small : ι)
  | pick (splay : ι)
  | bounds (splay : ι) (name : κ)

/-- What a call returns. -/
inductive Answer (κ α : Type*) where
  | none
  | lookup (entry : Option α)
  | pick (found : Option (κ × α))
  | bounds (found : κ × κ)

/-- The trees after a call, and its answer.  `ipc_splay_tree_join` leaves `small` null. -/
def step (trees : ι → SplayState κ α) : Call ι κ α → (ι → SplayState κ α) × Answer κ α
  | .lookup splay name =>
    let (entry, s) := (trees splay).lookup name
    (update trees splay s, .lookup entry)
  | .insert splay name entry =>
    (update trees splay ((trees splay).insert name entry), .none)
  | .delete splay name => (update trees splay ((trees splay).delete name), .none)
  | .split splay name small =>
    let (s, below) := (trees splay).split name
    (update (update trees splay s) small below, .none)
  | .join splay small =>
    (update (update trees splay ((trees splay).join (trees small))) small
        (init (trees small).name), .none)
  | .pick splay => (trees, .pick (trees splay).pick)
  | .bounds splay name =>
    let (found, s) := (trees splay).bounds name
    (update trees splay s, .bounds found)

/-- The maps after a call. -/
def mapStep (maps : ι → κ → Option α) : Call ι κ α → ι → κ → Option α
  | .lookup .. | .pick .. | .bounds .. => maps
  | .insert splay name entry =>
    update maps splay (update (maps splay) name (some entry))
  | .delete splay name => update maps splay (update (maps splay) name none)
  | .split splay name small =>
    update
      (update maps splay fun n => if name ≤ n then maps splay n else none) small
        fun n => if n < name then maps splay n else none
  | .join splay small =>
    update (update maps splay fun n => (maps splay n).or (maps small n)) small fun _ => none

/-- When a call may be made: an insertion of an absent name, a deletion of one that is present, a
split into another tree, and a join with another one whose names are all smaller. -/
def Allowed (maps : ι → κ → Option α) : Call ι κ α → Prop
  | .insert splay name _ => maps splay name = none
  | .delete splay name => (maps splay name).isSome
  | .split splay _ small => small ≠ splay
  | .join splay small => small ≠ splay ∧
      ∀ first second, (maps small first).isSome → (maps splay second).isSome → first < second
  | _ => True

/-- The right answer of a call. -/
def Correct (maps : ι → κ → Option α) : Call ι κ α → Answer κ α → Prop
  | .lookup splay name, answer => answer = .lookup (maps splay name)
  | .pick splay, answer => answer = .pick none ∧ (maps splay = fun _ => none) ∨
      ∃ name entry, answer = .pick (some (name, entry)) ∧ maps splay name = some entry
  | .bounds splay name, answer => ∃ found, answer = .bounds found ∧
      TightBounds (maps splay) name found
  | _, answer => answer = .none

variable {trees : ι → SplayState κ α} {maps : ι → κ → Option α}

variable (rep : ∀ i, Represents (trees i) (maps i))

include rep

omit [BoundedOrder κ] in
theorem represents_update {s : SplayState κ α}
    {m : κ → Option α} (rep' : Represents s m) (splay : ι) :
    ∀ i, Represents (update trees splay s i) (update maps splay m i) := by
  intro i
  by_cases same : i = splay
  · subst same
    rwa [update_self, update_self]
  · rw [update_of_ne same, update_of_ne same]
    exact rep i

omit [BoundedOrder κ] in
theorem represents_update_same {s : SplayState κ α} {splay : ι} (rep' : Represents s (maps splay)) :
    ∀ i, Represents (update trees splay s i) (maps i) := by
  have updated := represents_update rep rep' splay
  rwa [Function.update_eq_self] at updated

/-- An allowed call on any of the trees takes their maps along and answers rightly. -/
theorem step_represents (call : Call ι κ α) (allowed : Allowed maps call) :
    (∀ i, Represents ((step trees call).1 i) (mapStep maps call i)) ∧
      Correct maps call (step trees call).2 := by
  cases call with
  | lookup splay name =>
    obtain ⟨answer, rep'⟩ := lookup_represents (rep splay) name
    exact ⟨represents_update_same rep rep', congrArg Answer.lookup answer⟩
  | insert splay name entry =>
    exact ⟨represents_update rep (insert_represents (rep splay) allowed entry) splay, rfl⟩
  | delete splay name =>
    exact ⟨represents_update rep (delete_represents (rep splay) allowed) splay, rfl⟩
  | split splay name small =>
    obtain ⟨above, below⟩ := split_represents (rep splay) name
    exact ⟨represents_update (represents_update rep above splay) below small, rfl⟩
  | join splay small =>
    have joined := join_represents (rep splay) (rep small) allowed.2
    exact ⟨represents_update (represents_update rep joined splay) (represents_init _) small, rfl⟩
  | pick splay =>
    refine ⟨rep, ?_⟩
    rcases pick_represents (rep splay) with ⟨answer, empty⟩ | ⟨name, entry, answer, found⟩
    · exact .inl ⟨congrArg Answer.pick answer, empty⟩
    · exact .inr ⟨name, entry, congrArg Answer.pick answer, found⟩
  | bounds splay name =>
    obtain ⟨tight, rep'⟩ := bounds_represents (rep splay) name
    exact ⟨represents_update_same rep rep', _, rfl, tight⟩

/-- The trees and the maps after a sequence of calls. -/
def run (trees : ι → SplayState κ α) (calls : List (Call ι κ α)) : ι → SplayState κ α :=
  calls.foldl (fun trees call => (step trees call).1) trees

/-- The maps after a sequence of calls. -/
def mapRun (maps : ι → κ → Option α) (calls : List (Call ι κ α)) : ι → κ → Option α :=
  calls.foldl mapStep maps

/-- Every call of a sequence is allowed when its turn comes. -/
def AllAllowed : (ι → κ → Option α) → List (Call ι κ α) → Prop
  | _, [] => True
  | maps, call :: rest => Allowed maps call ∧ AllAllowed (mapStep maps call) rest

theorem run_keeps (calls : List (Call ι κ α)) (allowed : AllAllowed maps calls) :
    ∀ i, Represents (run trees calls i) (mapRun maps calls i) := by
  induction calls generalizing trees maps with
  | nil => exact rep
  | cons call rest ih => exact ih (step_represents rep call allowed.1).1 allowed.2

omit rep

omit [BoundedOrder κ] in
theorem AllAllowed.append {calls rest : List (Call ι κ α)}
    (allowed : AllAllowed maps (calls ++ rest)) :
    AllAllowed maps calls ∧ AllAllowed (mapRun maps calls) rest := by
  induction calls generalizing maps with
  | nil => exact ⟨trivial, allowed⟩
  | cons call others ih => exact ⟨⟨allowed.1, (ih allowed.2).1⟩, (ih allowed.2).2⟩

/-- In every sequence of allowed calls from empty trees, after any number of them, the names of
every tree are in order and are those of its map, and the next call answers as the map says. -/
theorem run_represents (name : ι → κ) (calls rest : List (Call ι κ α))
    (allowed : AllAllowed (fun _ _ => none) (calls ++ rest)) :
    let trees := run (fun i => init (name i)) calls
    let maps := mapRun (fun _ _ => none) calls
    (∀ i, Increasing (trees i).contents ∧
      ∀ n entry, (n, entry) ∈ (trees i).contents ↔ maps i n = some entry) ∧
    ∀ call ∈ rest.head?, Correct maps call (step trees call).2 := by
  intro trees maps
  obtain ⟨past, next⟩ := allowed.append
  have rep := run_keeps (fun i => represents_init (name i)) calls past
  refine ⟨fun i => ⟨(rep i).denotes.sorted, (rep i).denotes.mem⟩, ?_⟩
  intro call first
  cases rest with
  | nil => cases first
  | cons call' rest =>
    cases first
    exact (step_represents rep call next.1).2

/-- Two names, split apart and joined again. -/
def apartAndBack : List (Call Bool MachPort ℕ) :=
  [.insert false 7 70, .insert false 3 30, .split false 5 true, .join false true, .delete false 3]

theorem run_represents_apartAndBack :
    Correct (mapRun (fun _ _ => none) apartAndBack) (.bounds false 5)
      (step (run (fun _ => init 0) apartAndBack) (.bounds false 5)).2 := by
  refine (run_represents (fun _ => 0) apartAndBack [.bounds false 5] ?_).2 _ rfl
  simp only [apartAndBack, cons_append, nil_append, AllAllowed, and_true]
  refine ⟨rfl, rfl, (fun same => by cases same), ⟨(fun same => by cases same), ?_⟩, rfl, trivial⟩
  intro first second below above
  have ne : false ≠ true := Bool.false_ne_true
  simp only [mapStep, update_self, update_of_ne ne] at below above
  split at below
  · split at above
    · exact lt_of_lt_of_le ‹first < 5› ‹5 ≤ second›
    · cases above
  · cases below

end Runs

end Darwin.Ipc.Splay
