import Darwin.Ipc.Splay.Refines

/-!
# Traversal of a splay tree

A model of `ipc_splay_traverse_start`, `ipc_splay_traverse_next` and `ipc_splay_traverse_finish`.
The walk keeps its way back in the tree: each entry above the current one has the child pointer that
the walk took turned around, to its own parent.  Such an entry is a frame, of which the other child
remains; the way back is a list of frames.  Where the code takes a pointer for the way back it
compares the names of the current entry and of its parent to find out which of the two it is.

## Main definitions

* `Walk` — a walk at an entry, or at its end
* `traverseStart`, `traverseNext`, `traverseFinish` — the operations
* `visits` — the loop of a caller

## Main results

* `traverseNext_spec` — one step returns the next entry and keeps or drops the current one
* `traverse_exact` — a whole traversal
-/

namespace Darwin.Ipc.Splay

open List

variable {κ α : Type*}

/-- An entry above the current one: its `lchild` or its `rchild` points to its parent. -/
inductive Frame (κ α : Type*) where
  | lchildUp (above : RightEntry κ α)
  | rchildUp (above : LeftEntry κ α)

/-- A walk: at an entry with its children and the frames above it, as `ist_ltree` and `ist_rtree`
hold them, or at its end, with the new root. -/
inductive Walk (κ α : Type*) where
  | visiting (lchild : Tree κ α) (name : κ) (entry : α) (rchild : Tree κ α)
    (parent : List (Frame κ α))
  | ended (root : Tree κ α)

section Operations

variable [LinearOrder κ]

/-- The label `traverse_left`, for a current entry with the given children. -/
def traverseLeft : (lchild : Tree κ α) → (name : κ) → (entry : α) → (rchild : Tree κ α) →
    (parent : List (Frame κ α)) → Walk κ α
  | .nil, name, entry, rchild, parent => .visiting .nil name entry rchild parent
  | .node ll lname lentry lr, name, entry, rchild, parent =>
    traverseLeft ll lname lentry lr (.lchildUp ⟨name, entry, rchild⟩ :: parent)

/-- The label `traverse_back`, for a current tree whose root has the name given.  The pointer that
the comparison of the names selects is the one that leads up; the walk does not go on where it is
not. -/
def traverseBack (name : κ) (current : Tree κ α) : List (Frame κ α) → Option (Walk κ α)
  | [] => some (.ended current)
  | .lchildUp above :: parent =>
    if name < above.name then
      some (.visiting current above.name above.entry above.rchild parent)
    else none
  | .rchildUp above :: parent =>
    if name < above.name then none
    else traverseBack above.name (.node above.lchild above.name above.entry current) parent

/-- The label `traverse_right`. -/
def traverseRight (lchild : Tree κ α) (name : κ) (entry : α) (rchild : Tree κ α)
    (parent : List (Frame κ α)) : Option (Walk κ α) :=
  match rchild with
  | .nil => traverseBack name (.node lchild name entry .nil) parent
  | .node rl rname rentry rr =>
    some (traverseLeft rl rname rentry rr (.rchildUp ⟨lchild, name, entry⟩ :: parent))

/-- The deletion of an entry without children, named `name`: its parent gets a null pointer. -/
def deleteLeaf (name : κ) : List (Frame κ α) → Option (Walk κ α)
  | [] => some (.ended .nil)
  | .lchildUp above :: parent =>
    if name < above.name then some (.visiting .nil above.name above.entry above.rchild parent)
    else none
  | .rchildUp above :: parent =>
    if name < above.name then none
    else traverseBack above.name (.node above.lchild above.name above.entry .nil) parent

/-- `ipc_splay_traverse_start`; nothing for an empty tree. -/
def traverseStart (s : SplayState κ α) : Option (Walk κ α) :=
  match primAssemble s.toFragments with
  | .nil => none
  | .node lchild name entry rchild => some (traverseLeft lchild name entry rchild [])

variable [BoundedOrder κ]

/-- `ipc_splay_traverse_next`. -/
def traverseNext (delete : Bool) : Walk κ α → Option (Walk κ α)
  | .ended root => some (.ended root)
  | .visiting lchild name entry rchild parent =>
    if delete = false then traverseRight lchild name entry rchild parent
    else
      match lchild, rchild with
      | .nil, .nil => deleteLeaf name parent
      | .nil, .node rl rname rentry rr => some (traverseLeft rl rname rentry rr parent)
      | .node ll lname lentry lr, .nil => traverseBack lname (.node ll lname lentry lr) parent
      | .node ll lname lentry lr, .node rl rname rentry rr =>
        -- the largest of the left children takes the place of the current entry
        match primAssemble (primLookup ⊤ (.node ll lname lentry lr) [] []) with
        | .nil => none
        | .node l largest e _ => traverseRight l largest e (.node rl rname rentry rr) parent

/-- `ipc_splay_traverse_finish`. -/
def traverseFinish (s : SplayState κ α) (root : Tree κ α) : SplayState κ α :=
  match root with
  | .nil => ⟨⟨.nil, s.left, s.right⟩, s.name⟩
  | .node lchild name entry rchild => ⟨⟨.node lchild name entry rchild, [], []⟩, name⟩

/-- The loop of a caller that decides for each entry whether it is to be deleted: the entries that
it was given, and the walk after them.  It stops where it has no decisions left. -/
def visits : (decisions : List Bool) → Walk κ α → Option (List (κ × α) × Walk κ α)
  | _, .ended root => some ([], .ended root)
  | [], .visiting lchild name entry rchild parent =>
    some ([], .visiting lchild name entry rchild parent)
  | delete :: decisions, .visiting lchild name entry rchild parent =>
    match traverseNext delete (.visiting lchild name entry rchild parent) with
    | none => none
    | some walk =>
      match visits decisions walk with
      | none => none
      | some (given, walk) => some ((name, entry) :: given, walk)

end Operations

/-! ## What a walk has done and what it has to do -/

/-- The names before the current entry that the frames hold, in order. -/
def framesBefore : List (Frame κ α) → List (κ × α)
  | [] => []
  | .lchildUp _ :: parent => framesBefore parent
  | .rchildUp above :: parent =>
    framesBefore parent ++ (above.lchild.toList ++ [(above.name, above.entry)])

/-- The names after the current entry that the frames hold, in order. -/
def framesAfter : List (Frame κ α) → List (κ × α)
  | [] => []
  | .lchildUp above :: parent =>
    (above.name, above.entry) :: (above.rchild.toList ++ framesAfter parent)
  | .rchildUp _ :: parent => framesAfter parent

/-- The entries that a walk has kept so far. -/
def Walk.kept : Walk κ α → List (κ × α)
  | .visiting lchild _ _ _ parent => framesBefore parent ++ lchild.toList
  | .ended root => root.toList

/-- The entries that a walk has still to give, the current one included. -/
def Walk.remaining : Walk κ α → List (κ × α)
  | .visiting _ name entry rchild parent => (name, entry) :: (rchild.toList ++ framesAfter parent)
  | .ended _ => []

section Spec

/-- Going down to the left keeps what there is. -/
theorem traverseLeft_spec (lchild : Tree κ α) (name : κ) (entry : α) (rchild : Tree κ α)
    (parent : List (Frame κ α)) :
    (traverseLeft lchild name entry rchild parent).kept = framesBefore parent ∧
      (traverseLeft lchild name entry rchild parent).remaining =
        (Tree.node lchild name entry rchild).toList ++ framesAfter parent := by
  induction lchild generalizing name entry rchild parent with
  | nil =>
    rw [traverseLeft]
    exact ⟨append_nil _, rfl⟩
  | node ll lname lentry lr ih =>
    rw [traverseLeft]
    obtain ⟨kept, remaining⟩ := ih lname lentry lr (.lchildUp ⟨name, entry, rchild⟩ :: parent)
    refine ⟨kept, remaining.trans ?_⟩
    simp only [framesAfter, Tree.toList, append_assoc, cons_append]

/-- What `ipc_splay_traverse_finish` leaves is the tree at the new root. -/
theorem contents_traverseFinish (s : SplayState κ α) (root : Tree κ α) :
    (traverseFinish s root).contents = root.toList := by
  cases root with
  | nil => rfl
  | node lchild name entry rchild =>
    change leftList [] ++ ((Tree.node lchild name entry rchild).toList ++ rightList []) = _
    exact append_nil _

variable [LinearOrder κ] {parent : List (Frame κ α)} {name : κ} {entry : α}

/-- Going back up keeps what there is: in a search tree every name leads to the pointer that was
turned around. -/
theorem traverseBack_spec (name : κ) {current : Tree κ α}
    (sorted : Increasing (framesBefore parent ++ (current.toList ++ framesAfter parent)))
    (root : ∃ entry, (name, entry) ∈ current.toList) :
    ∃ walk, traverseBack name current parent = some walk ∧
      walk.kept = framesBefore parent ++ current.toList ∧ walk.remaining = framesAfter parent := by
  induction parent generalizing name current with
  | nil => exact ⟨.ended current, rfl, (nil_append _).symm, rfl⟩
  | cons frame parent ih =>
    obtain ⟨entry, mem⟩ := root
    cases frame with
    | lchildUp above =>
      have less : name < above.name := by
        have across := (increasing_append.mp (increasing_append.mp sorted).2.1).2.2
        exact across (name, entry) mem (above.name, above.entry) mem_cons_self
      refine ⟨_, by rw [traverseBack, if_pos less], rfl, rfl⟩
    | rchildUp above =>
      have less : above.name < name := by
        have across := (increasing_append.mp sorted).2.2
        refine across (above.name, above.entry) ?_ (name, entry) (mem_append_left _ mem)
        exact mem_append_right _ (mem_append_cons_self)
      have whole : framesBefore parent ++
          ((Tree.node above.lchild above.name above.entry current).toList ++ framesAfter parent) =
          framesBefore (.rchildUp above :: parent) ++
            (current.toList ++ framesAfter (.rchildUp above :: parent)) := by
        simp only [framesBefore, framesAfter, Tree.toList, append_assoc, cons_append, nil_append]
      obtain ⟨walk, back, kept, remaining⟩ := ih _ (whole ▸ sorted) ⟨above.entry, by
        rw [Tree.toList]
        exact mem_append_cons_self⟩
      refine ⟨walk, by rw [traverseBack, if_neg less.not_gt, back], ?_, remaining⟩
      rw [kept]
      simp only [framesBefore, Tree.toList, append_assoc, cons_append, nil_append]

/-- The current entry is kept and the walk goes on to the right of it. -/
theorem traverseRight_spec {lchild rchild : Tree κ α} (sorted : Increasing (framesBefore parent ++ (lchild.toList ++
      (name, entry) :: (rchild.toList ++ framesAfter parent)))) :
    ∃ walk, traverseRight lchild name entry rchild parent = some walk ∧
      walk.kept = framesBefore parent ++ (lchild.toList ++ [(name, entry)]) ∧
      walk.remaining = rchild.toList ++ framesAfter parent := by
  cases rchild with
  | nil =>
    have whole : framesBefore parent ++ ((Tree.node lchild name entry .nil).toList ++
        framesAfter parent) = framesBefore parent ++ (lchild.toList ++
          (name, entry) :: (Tree.nil.toList ++ framesAfter parent)) := by
      simp only [Tree.toList, append_assoc, cons_append, nil_append]
    obtain ⟨walk, back, kept, remaining⟩ := traverseBack_spec name (whole ▸ sorted)
      ⟨entry, by rw [Tree.toList]; exact mem_append_cons_self⟩
    exact ⟨walk, back, kept, remaining⟩
  | node rl rname rentry rr =>
    obtain ⟨kept, remaining⟩ := traverseLeft_spec rl rname rentry rr
      (.rchildUp ⟨lchild, name, entry⟩ :: parent)
    exact ⟨_, rfl, kept, remaining⟩

/-- A leaf is deleted and the walk goes back up. -/
theorem deleteLeaf_spec
    (sorted : Increasing (framesBefore parent ++ (name, entry) :: framesAfter parent)) :
    ∃ walk, deleteLeaf name parent = some walk ∧ walk.kept = framesBefore parent ∧
      walk.remaining = framesAfter parent := by
  cases parent with
  | nil => exact ⟨.ended .nil, rfl, rfl, rfl⟩
  | cons frame parent =>
    cases frame with
    | lchildUp above =>
      have less : name < above.name :=
        (pairwise_cons.mp (increasing_append.mp sorted).2.1).1 (above.name, above.entry)
          mem_cons_self
      exact ⟨_, by rw [deleteLeaf, if_pos less], append_nil _, rfl⟩
    | rchildUp above =>
      have less : above.name < name := by
        refine (increasing_append.mp sorted).2.2 (above.name, above.entry) ?_ (name, entry)
          mem_cons_self
        exact mem_append_right _ (mem_append_cons_self)
      have shorter : Increasing (framesBefore parent ++
          ((Tree.node above.lchild above.name above.entry .nil).toList ++ framesAfter parent)) := by
        obtain ⟨below, rest, across⟩ := increasing_append.mp sorted
        have joined := increasing_append.mpr ⟨below, (pairwise_cons.mp rest).2,
          fun x hx y hy => across x hx y (mem_cons_of_mem _ hy)⟩
        simpa only [framesBefore, framesAfter, Tree.toList, append_assoc] using joined
      obtain ⟨walk, back, kept, remaining⟩ := traverseBack_spec above.name shorter
        ⟨above.entry, by rw [Tree.toList]; exact mem_append_cons_self⟩
      exact ⟨walk, by rw [deleteLeaf, if_neg less.not_gt, back], kept, remaining⟩

/-- The entries that a list of decisions keeps. -/
def keptBy (entries : List (κ × α)) (decisions : List Bool) : List (κ × α) :=
  ((entries.zip decisions).filter fun x => !x.2).map Prod.fst

/-- The entries kept are in order. -/
theorem increasing_keptBy {entries : List (κ × α)} (sorted : Increasing entries)
    (decisions : List Bool) : Increasing (keptBy entries decisions) := by
  refine List.Pairwise.sublist ?_ sorted
  induction entries generalizing decisions with
  | nil => exact List.Sublist.refl _
  | cons first entries ih =>
    have rest := ih (pairwise_cons.mp sorted).2
    cases decisions with
    | nil => exact nil_sublist _
    | cons delete decisions =>
      cases delete with
      | false => exact (rest decisions).cons_cons first
      | true => exact (rest decisions).cons first

variable [BoundedOrder κ]

/-- Splayed for the largest name, a tree has its last entry at the root and nothing to the right. -/
theorem primLookup_top {ll lr : Tree κ α} {lname : κ} {lentry : α}
    (sorted : Increasing (Tree.node ll lname lentry lr).toList) :
    ∃ l largest e, primAssemble (primLookup ⊤ (.node ll lname lentry lr) [] []) =
        .node l largest e .nil ∧
      l.toList ++ [(largest, e)] = (Tree.node ll lname lentry lr).toList := by
  have some' : (primLookup ⊤ (Tree.node ll lname lentry lr) [] []).tree.isNode = true := by
    rw [isNode_primLookup]
    rfl
  have whole : (primAssemble (primLookup ⊤ (Tree.node ll lname lentry lr) [] [])).toList =
      (Tree.node ll lname lentry lr).toList := by
    rw [toList_primAssemble some', toList_primLookup]
    simp [leftList, rightList]
  have focused := primLookup_focused ⊤ (Tree.node ll lname lentry lr) [] [] sorted
    (forall_mem_nil _) (forall_mem_nil _)
  cases tree : primAssemble (primLookup ⊤ (Tree.node ll lname lentry lr) [] []) with
  | nil =>
    rw [tree] at whole
    simp [Tree.toList] at whole
  | node l largest e r =>
    obtain rfl := primAssemble_top focused tree (whole ▸ sorted)
    rw [tree] at whole
    exact ⟨l, largest, e, rfl, whole⟩

/-- One step of a walk: the current entry joins those kept, or not, and the entry after it becomes
the current one. -/
theorem traverseNext_spec {walk : Walk κ α} {rest : List (κ × α)}
    (sorted : Increasing (walk.kept ++ walk.remaining))
    (current : walk.remaining = (name, entry) :: rest) (delete : Bool) :
    ∃ walk', traverseNext delete walk = some walk' ∧
      walk'.kept = (if delete then walk.kept else walk.kept ++ [(name, entry)]) ∧
      walk'.remaining = rest := by
  cases walk with
  | ended root => cases current
  | visiting lchild name' entry' rchild parent =>
    obtain ⟨same, rfl⟩ := List.cons.inj current
    obtain ⟨rfl, rfl⟩ := Prod.mk.inj same
    simp only [Walk.kept, Walk.remaining, append_assoc] at sorted
    rw [show (Walk.visiting lchild name' entry' rchild parent).kept =
      framesBefore parent ++ lchild.toList from rfl, append_assoc]
    obtain ⟨below, after, across⟩ := increasing_append.mp sorted
    cases delete with
    | false => exact traverseRight_spec sorted
    | true =>
      cases lchild with
      | nil =>
        cases rchild with
        | nil =>
          obtain ⟨walk, deletes, kept, remaining⟩ := deleteLeaf_spec sorted
          exact ⟨walk, deletes, kept.trans (append_nil _).symm, remaining⟩
        | node rl rname rentry rr =>
          obtain ⟨kept, remaining⟩ := traverseLeft_spec rl rname rentry rr parent
          exact ⟨_, rfl, kept.trans (append_nil _).symm, remaining⟩
      | node ll lname lentry lr =>
        -- Without the current entry the names are still in order.
        have shorter : Increasing (framesBefore parent ++ ((Tree.node ll lname lentry lr).toList ++
            (rchild.toList ++ framesAfter parent))) := by
          rw [← append_assoc] at sorted ⊢
          obtain ⟨below, rest, across⟩ := increasing_append.mp sorted
          exact increasing_append.mpr ⟨below, (pairwise_cons.mp rest).2,
            fun x hx y hy => across x hx y (mem_cons_of_mem _ hy)⟩
        cases rchild with
        | nil =>
          exact traverseBack_spec _ shorter
            ⟨lentry, by rw [Tree.toList]; exact mem_append_cons_self⟩
        | node rl rname rentry rr =>
          have left := (increasing_append.mp (increasing_append.mp shorter).2.1).1
          obtain ⟨l, largest, e, splayed, whole⟩ := primLookup_top left
          have joined : Increasing (framesBefore parent ++ (l.toList ++ (largest, e) ::
              ((Tree.node rl rname rentry rr).toList ++ framesAfter parent))) := by
            rw [← whole] at shorter
            simpa only [append_assoc, cons_append, nil_append] using shorter
          obtain ⟨walk, right, kept, remaining⟩ := traverseRight_spec joined
          refine ⟨walk, ?_, ?_, remaining⟩
          · simp only [traverseNext, Bool.true_eq_false, if_false, splayed]
            exact right
          · rw [kept, whole]
            rfl

/-- The loop of a caller from any point of a walk on. -/
theorem visits_spec (walk : Walk κ α) (decisions : List Bool)
    (sorted : Increasing (walk.kept ++ walk.remaining))
    (enough : walk.remaining.length ≤ decisions.length) :
    ∃ root, visits decisions walk = some (walk.remaining, .ended root) ∧
      root.toList = walk.kept ++ keptBy walk.remaining decisions := by
  induction decisions generalizing walk with
  | nil =>
    cases walk with
    | ended root => exact ⟨root, rfl, (append_nil _).symm⟩
    | visiting => exact absurd enough (Nat.not_succ_le_zero _)
  | cons delete decisions ih =>
    cases walk with
    | ended root => exact ⟨root, by rw [visits]; rfl, (append_nil _).symm⟩
    | visiting lchild name entry rchild parent =>
      obtain ⟨walk', next, kept, remaining⟩ := traverseNext_spec sorted rfl delete
      have sorted' : Increasing (walk'.kept ++ walk'.remaining) := by
        rw [kept, remaining]
        cases delete with
        | false =>
          simp only [Bool.false_eq_true, if_false, append_assoc, cons_append, nil_append]
          exact sorted
        | true =>
          obtain ⟨below, rest, across⟩ := increasing_append.mp sorted
          exact increasing_append.mpr ⟨below, (pairwise_cons.mp rest).2,
            fun x hx y hy => across x hx y (mem_cons_of_mem _ hy)⟩
      obtain ⟨root, visited, whole⟩ := ih _ sorted' (by
        rw [remaining]
        exact Nat.le_of_succ_le_succ enough)
      refine ⟨root, ?_, ?_⟩
      · rw [visits, next]
        simp only [visited, remaining]
        rfl
      rw [whole, kept, remaining]
      cases delete with
      | false =>
        simp only [Bool.false_eq_true, if_false, append_assoc]
        rfl
      | true => rfl

/-- A traversal of a splay tree in any state gives every entry once, in strictly ascending order of
names, whatever the caller decides to delete, and ends; after it the tree is a search tree of
exactly the entries that were kept. -/
theorem traverse_exact (s : SplayState κ α) (sorted : Increasing s.contents)
    (decisions : List Bool) (enough : s.contents.length ≤ decisions.length) :
    match traverseStart s with
    | none => s.contents = [] ∧ s.tree = .nil
    | some walk => ∃ root, visits decisions walk = some (s.contents, .ended root) ∧
        (traverseFinish s root).contents = keptBy s.contents decisions ∧
        Increasing (traverseFinish s root).contents := by
  rw [traverseStart]
  cases tree : s.tree with
  | nil =>
    have empty : primAssemble s.toFragments = .nil := by rw [primAssemble, tree]
    rw [empty]
    exact ⟨by rw [SplayState.contents, tree]; rfl, rfl⟩
  | node l n e r =>
    have some' : s.tree.isNode = true := by
      rw [tree]
      rfl
    have whole : (primAssemble s.toFragments).toList = s.contents := by
      rw [toList_primAssemble some', SplayState.contents, if_pos some']
    have splayed : primAssemble s.toFragments =
        .node (plugLeft s.left l) n e (plugRight s.right r) := by rw [primAssemble, tree]
    rw [splayed] at whole ⊢
    obtain ⟨kept, remaining⟩ := traverseLeft_spec (plugLeft s.left l) n e (plugRight s.right r) []
    have remaining := remaining.trans ((append_nil _).trans whole)
    obtain ⟨root, visited, left⟩ := visits_spec
      (traverseLeft (plugLeft s.left l) n e (plugRight s.right r) []) decisions
      (by rw [kept, remaining]; exact sorted) (by rw [remaining]; exact enough)
    rw [remaining] at visited left
    rw [kept] at left
    have finished : (traverseFinish s root).contents = keptBy s.contents decisions := by
      rw [contents_traverseFinish]
      exact left
    exact ⟨root, visited, finished, finished ▸ increasing_keptBy sorted decisions⟩

end Spec

/-- Three names, of which the one in the middle has a left and a right child and is deleted. -/
def threeNames : SplayState MachPort ℕ :=
  ⟨⟨.node (.node .nil 1 10 .nil) 2 20 (.node .nil 3 30 .nil), [], []⟩, 2⟩

theorem traverse_exact_three : ∃ walk root, traverseStart threeNames = some walk ∧
    visits [false, true, false] walk = some ([(1, 10), (2, 20), (3, 30)], .ended root) ∧
    (traverseFinish threeNames root).contents = [(1, 10), (3, 30)] := by
  have sorted : Increasing threeNames.contents := by
    unfold Increasing
    decide
  obtain ⟨root, visited, kept, -⟩ :=
    traverse_exact threeNames sorted [false, true, false] (by decide)
  exact ⟨_, root, rfl, visited, kept⟩

end Darwin.Ipc.Splay
