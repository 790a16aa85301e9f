import Mathlib.Data.Finset.Card

/-!
# Forests stored as lists of children

Nodes are found by their names; a node lists the names of its children and says who its parent is.
The two agree in a forest.  A forest is changed at its leaves: a new leaf is added on its own, a
node takes up a leaf or lets go of one, and a leaf that nobody lists goes away.

## Main definitions

* `Forest` - the children of every node are nodes that name it as their parent, no node is below
  itself, and every node is below a top that nobody lists

## Main results

* `Forest.addLeaf`, `Forest.attach`, `Forest.detach`, `Forest.removeLeaf`, `Forest.replace` - the
  changes keep the forest
-/

namespace Darwin.Lib

open List Option
open Function (update update_of_ne update_self)
open Relation

variable {ι β : Type*} {kids : β → List ι} {up : β → ι} {node : ι → Option β} {top : ι → Prop}
  {i j k : ι} {b b' c : β}

/-- The node `i` has `j` among its children. -/
def Lists (kids : β → List ι) (node : ι → Option β) (i j : ι) : Prop :=
  ∃ b, node i = some b ∧ j ∈ kids b

structure Forest (kids : β → List ι) (up : β → ι) (node : ι → Option β) (top : ι → Prop) :
    Prop where
  child : ∀ i j, Lists kids node i j → ∃ c, node j = some c ∧ up c = i
  nodup : ∀ i b, node i = some b → (kids b).Nodup
  acyclic : ∀ i, ¬ TransGen (Lists kids node) i i
  rooted : ∀ j c, node j = some c → ∃ t, top t ∧ (∀ k, ¬ Lists kids node k t) ∧
    ReflTransGen (Lists kids node) t j

section Lists

theorem lists_of_eq_some (there : node i = some b) (mem : j ∈ kids b) : Lists kids node i j :=
  ⟨b, there, mem⟩

theorem lists_iff (there : node i = some b) : Lists kids node i j ↔ j ∈ kids b := by
  constructor
  · rintro ⟨b', there', mem⟩
    rw [there] at there'
    cases there'
    exact mem
  · exact lists_of_eq_some there

theorem Forest.eq_of_lists (forest : Forest kids up node top) (first : Lists kids node i k)
    (second : Lists kids node j k) : i = j := by
  obtain ⟨c, there, rfl⟩ := forest.child i k first
  obtain ⟨c', there', rfl⟩ := forest.child j k second
  rw [there] at there'
  cases there'
  rfl

/-- Nothing is below a leaf. -/
theorem eq_of_leaf (leaf : ∀ k, ¬ Lists kids node j k)
    (below : ReflTransGen (Lists kids node) j i) : i = j := by
  rcases below.cases_head with same | ⟨k, listed, -⟩
  · exact same.symm
  · exact absurd listed (leaf k)

theorem not_transGen_of_leaf (leaf : ∀ k, ¬ Lists kids node j k) :
    ¬ TransGen (Lists kids node) j i := by
  intro below
  obtain ⟨k, listed, -⟩ := TransGen.head'_iff.mp below
  exact leaf k listed

theorem not_lists_of_kids (there : ∀ c, node j = some c → kids c = []) (k : ι) :
    ¬ Lists kids node j k := by
  rintro ⟨c, found, mem⟩
  rw [there c found] at mem
  cases mem

theorem Forest.weaken {top' : ι → Prop} (forest : Forest kids up node top)
    (weaker : ∀ t, top t → top' t) : Forest kids up node top' where
  child := forest.child
  nodup := forest.nodup
  acyclic := forest.acyclic
  rooted := by
    intro j c there
    obtain ⟨t, isTop, unlisted, below⟩ := forest.rooted j c there
    exact ⟨t, weaker t isTop, unlisted, below⟩

end Lists

/-! ## Changes -/

section Changes

variable [DecidableEq ι]

theorem lists_update_kids (there : node i = some b) (sameKids : kids b' = kids b) :
    Lists kids (update node i (some b')) = Lists kids node := by
  funext x y
  by_cases same : x = i
  · subst same
    rw [lists_iff (update_self _ _ _), lists_iff there, sameKids]
  · unfold Lists
    rw [update_of_ne same]

/-- Exchange a node for one with the same children and parent. -/
theorem Forest.replace (forest : Forest kids up node top) (there : node i = some b)
    (sameKids : kids b' = kids b) (sameUp : up b' = up b) :
    Forest kids up (update node i (some b')) top := by
  have lists := lists_update_kids there sameKids
  constructor
  case child =>
    intro x y listed
    rw [lists] at listed
    obtain ⟨c, found, own⟩ := forest.child x y listed
    by_cases same : y = i
    · subst same
      rw [there] at found
      cases found
      exact ⟨b', update_self _ _ _, sameUp.trans own⟩
    · exact ⟨c, by rw [update_of_ne same, found], own⟩
  case nodup =>
    intro x c found
    by_cases same : x = i
    · subst same
      rw [update_self] at found
      cases found
      rw [sameKids]
      exact forest.nodup x b there
    · rw [update_of_ne same] at found
      exact forest.nodup x c found
  case acyclic =>
    rw [lists]
    exact forest.acyclic
  case rooted =>
    intro x c found
    rw [lists]
    by_cases same : x = i
    · exact forest.rooted x b (same ▸ there)
    · rw [update_of_ne same] at found
      exact forest.rooted x c found

/-- Only the lists of the node that is changed are other ones. -/
theorem lists_update_ne {o : Option β} (other : k ≠ i) :
    Lists kids (update node i o) k j ↔ Lists kids node k j := by
  unfold Lists
  rw [update_of_ne other]

theorem lists_update_leaf {o : Option β} (before : ∀ k, ¬ Lists kids node j k)
    (after : ∀ c, o = some c → kids c = []) :
    Lists kids (update node j o) = Lists kids node := by
  funext x y
  by_cases same : x = j
  · subst same
    apply propext
    constructor
    · rintro ⟨c, found, mem⟩
      rw [update_self] at found
      rw [after c found] at mem
      cases mem
    · exact fun listed => absurd listed (before y)
  · exact propext (lists_update_ne same)

/-- A new leaf is a top. -/
theorem Forest.addLeaf (forest : Forest kids up node top) (fresh : node j = none)
    (leaf : kids c = []) (isTop : top j) :
    Forest kids up (update node j (some c)) top := by
  have before : ∀ k, ¬ Lists kids node j k := by
    rintro k ⟨b, there, -⟩
    rw [fresh] at there
    cases there
  have lists : Lists kids (update node j (some c)) = Lists kids node := by
    apply lists_update_leaf before
    intro c' same
    rw [← some.inj same]
    exact leaf
  have not_child : ∀ k, ¬ Lists kids node k j := by
    intro k listed
    obtain ⟨c', there, -⟩ := forest.child k j listed
    rw [fresh] at there
    cases there
  constructor
  case child =>
    intro x y listed
    rw [lists] at listed
    obtain ⟨c', there, own⟩ := forest.child x y listed
    have other : y ≠ j := by
      rintro rfl
      exact not_child x listed
    exact ⟨c', by rw [update_of_ne other, there], own⟩
  case nodup =>
    intro x b there
    by_cases same : x = j
    · subst same
      rw [update_self] at there
      rw [← some.inj there, leaf]
      exact nodup_nil
    · rw [update_of_ne same] at there
      exact forest.nodup x b there
  case acyclic =>
    rw [lists]
    exact forest.acyclic
  case rooted =>
    intro x b there
    rw [lists]
    by_cases same : x = j
    · subst same
      exact ⟨x, isTop, not_child, .refl⟩
    · rw [update_of_ne same] at there
      exact forest.rooted x b there

section Attach

variable (forest : Forest kids up node top) (there : node i = some b) (leafThere : node j = some c)
  (leaf : kids c = []) (unlisted : ∀ k, ¬ Lists kids node k j) (own : up c = i)
  (mem : ∀ x, x ∈ kids b' ↔ x = j ∨ x ∈ kids b) (nodup : (kids b').Nodup) (sameUp : up b' = up b)
  (other : i ≠ j)

include there mem in
theorem lists_attach (x y : ι) : Lists kids (update node i (some b')) x y ↔
    Lists kids node x y ∨ x = i ∧ y = j := by
  by_cases same : x = i
  · subst same
    rw [lists_iff (update_self _ _ _), lists_iff there, mem, or_comm]
    exact or_congr_right (and_iff_right rfl).symm
  rw [lists_update_ne same]
  constructor
  · exact .inl
  · rintro (listed | ⟨isParent, -⟩)
    · exact listed
    · exact absurd isParent same

include forest there leafThere leaf unlisted own mem nodup sameUp other in
/-- A node takes up a leaf, which is no top any more. -/
theorem Forest.attach :
    Forest kids up (update node i (some b')) (fun t => top t ∧ t ≠ j) := by
  have lists := lists_attach (i := i) (j := j) there mem
  have no_kids : ∀ k, ¬ Lists kids node j k := by
    apply not_lists_of_kids
    intro c' found
    rw [leafThere] at found
    rw [← some.inj found]
    exact leaf
  have no_kids' : ∀ k, ¬ Lists kids (update node i (some b')) j k := by
    intro k listed
    rcases (lists j k).mp listed with old | ⟨same, -⟩
    · exact no_kids k old
    · exact other same.symm
  constructor
  case child =>
    intro x y listed
    rcases (lists x y).mp listed with old | ⟨rfl, rfl⟩
    · obtain ⟨c', found, own'⟩ := forest.child x y old
      by_cases same : y = i
      · subst same
        rw [there] at found
        cases found
        exact ⟨b', update_self _ _ _, sameUp.trans own'⟩
      · exact ⟨c', by rw [update_of_ne same, found], own'⟩
    · exact ⟨c, by rw [update_of_ne (Ne.symm other), leafThere], own⟩
  case nodup =>
    intro x b'' found
    by_cases same : x = i
    · subst same
      rw [update_self] at found
      rw [← some.inj found]
      exact nodup
    · rw [update_of_ne same] at found
      exact forest.nodup x b'' found
  case acyclic =>
    -- a way that uses the new edge ends with it
    have old_or_last : ∀ x y, TransGen (Lists kids (update node i (some b'))) x y →
        TransGen (Lists kids node) x y ∨ y = j := by
      intro x y below
      induction below with
      | single listed =>
        rcases (lists x _).mp listed with old | ⟨-, last⟩
        · exact .inl (.single old)
        · exact .inr last
      | tail _ listed ih =>
        rcases ih with old | last
        · rcases (lists _ _).mp listed with old' | ⟨-, last⟩
          · exact .inl (old.tail old')
          · exact .inr last
        · subst last
          exact absurd listed (no_kids' _)
    intro x cycle
    rcases old_or_last x x cycle with old | last
    · exact forest.acyclic x old
    · subst last
      exact not_transGen_of_leaf no_kids' cycle
  case rooted =>
    have old_path : ∀ x y, ReflTransGen (Lists kids node) x y →
        ReflTransGen (Lists kids (update node i (some b'))) x y := by
      intro x y below
      exact ReflTransGen.mono (fun x y old => (lists x y).mpr (.inl old)) x y below
    have from_top : ∀ x d, node x = some d → x ≠ j → ∃ t, (top t ∧ t ≠ j) ∧
        (∀ k, ¬ Lists kids (update node i (some b')) k t) ∧
        ReflTransGen (Lists kids (update node i (some b'))) t x := by
      intro x d found notLeaf
      obtain ⟨t, isTop, unlisted', below⟩ := forest.rooted x d found
      have not_j : t ≠ j := by
        rintro rfl
        exact notLeaf (eq_of_leaf no_kids below)
      refine ⟨t, ⟨isTop, not_j⟩, fun k listed => ?_, old_path t x below⟩
      rcases (lists k t).mp listed with old | ⟨-, last⟩
      · exact unlisted' k old
      · exact not_j last
    intro x d found
    by_cases isParent : x = i
    · subst isParent
      exact from_top x b there other
    rw [update_of_ne isParent] at found
    by_cases isLeaf : x = j
    · subst isLeaf
      obtain ⟨t, isTop, unlisted', below⟩ := from_top i b there other
      exact ⟨t, isTop, unlisted', below.tail ((lists i x).mpr (.inr ⟨rfl, rfl⟩))⟩
    · exact from_top x d found isLeaf

end Attach

section Detach

variable (forest : Forest kids up node top) (there : node i = some b) (leafThere : node j = some c)
  (leaf : kids c = []) (listed : j ∈ kids b) (mem : ∀ x, x ∈ kids b' ↔ x ≠ j ∧ x ∈ kids b)
  (nodup : (kids b').Nodup) (sameUp : up b' = up b)

include forest there listed mem in
theorem lists_detach (x y : ι) : Lists kids (update node i (some b')) x y ↔
    Lists kids node x y ∧ y ≠ j := by
  by_cases same : x = i
  · subst same
    rw [lists_iff (update_self _ _ _), lists_iff there, mem, and_comm]
  rw [lists_update_ne same]
  refine ⟨fun old => ⟨old, ?_⟩, And.left⟩
  rintro rfl
  exact same (forest.eq_of_lists old (lists_of_eq_some there listed))

include forest there leafThere leaf listed mem nodup sameUp in
/-- A node lets go of a leaf, which then is a top. -/
theorem Forest.detach (isTop : top j) :
    Forest kids up (update node i (some b')) top := by
  have lists := lists_detach forest there listed mem
  have no_kids : ∀ k, ¬ Lists kids node j k := by
    apply not_lists_of_kids
    intro c' found
    rw [leafThere] at found
    rw [← some.inj found]
    exact leaf
  constructor
  case child =>
    intro x y listed'
    obtain ⟨c', found, own'⟩ := forest.child x y ((lists x y).mp listed').1
    by_cases same : y = i
    · subst same
      rw [there] at found
      cases found
      exact ⟨b', update_self _ _ _, sameUp.trans own'⟩
    · exact ⟨c', by rw [update_of_ne same, found], own'⟩
  case nodup =>
    intro x b'' found
    by_cases same : x = i
    · subst same
      rw [update_self] at found
      rw [← some.inj found]
      exact nodup
    · rw [update_of_ne same] at found
      exact forest.nodup x b'' found
  case acyclic =>
    intro x cycle
    exact forest.acyclic x (TransGen.mono (fun x y new => ((lists x y).mp new).1) x x cycle)
  case rooted =>
    -- the leaf is on no way to another node
    have kept : ∀ t x, ReflTransGen (Lists kids node) t x → x ≠ j →
        ReflTransGen (Lists kids (update node i (some b'))) t x := by
      intro t x below
      induction below with
      | refl => exact fun _ => .refl
      | tail _ step ih =>
        intro notLeaf
        have before := ih fun same => no_kids _ (same ▸ step)
        exact before.tail ((lists _ _).mpr ⟨step, notLeaf⟩)
    have unlisted : ∀ t, (∀ k, ¬ Lists kids node k t) →
        ∀ k, ¬ Lists kids (update node i (some b')) k t :=
      fun t none k new => none k ((lists k t).mp new).1
    intro x d found
    by_cases isLeaf : x = j
    · subst isLeaf
      exact ⟨x, isTop, fun k new => ((lists k x).mp new).2 rfl, .refl⟩
    obtain ⟨d', found'⟩ : ∃ d', node x = some d' := by
      by_cases isParent : x = i
      · exact ⟨b, isParent ▸ there⟩
      · rw [update_of_ne isParent] at found
        exact ⟨d, found⟩
    obtain ⟨t, isTop', none, below⟩ := forest.rooted x d' found'
    exact ⟨t, isTop', unlisted t none, kept t x below isLeaf⟩

end Detach

/-- A leaf that nobody lists goes away. -/
theorem Forest.removeLeaf (forest : Forest kids up node top)
    (leaf : ∀ c, node j = some c → kids c = []) (unlisted : ∀ k, ¬ Lists kids node k j) :
    Forest kids up (update node j none) (fun t => top t ∧ t ≠ j) := by
  have no_kids : ∀ k, ¬ Lists kids node j k := not_lists_of_kids leaf
  have lists : Lists kids (update node j none) = Lists kids node :=
    lists_update_leaf no_kids fun c same => by cases same
  constructor
  case child =>
    intro x y listed
    rw [lists] at listed
    obtain ⟨c, there, own⟩ := forest.child x y listed
    have other : y ≠ j := by
      rintro rfl
      exact unlisted x listed
    exact ⟨c, by rw [update_of_ne other, there], own⟩
  case nodup =>
    intro x b there
    by_cases same : x = j
    · subst same
      rw [update_self] at there
      cases there
    · rw [update_of_ne same] at there
      exact forest.nodup x b there
  case acyclic =>
    rw [lists]
    exact forest.acyclic
  case rooted =>
    intro x b there
    rw [lists]
    have other : x ≠ j := by
      rintro rfl
      rw [update_self] at there
      cases there
    rw [update_of_ne other] at there
    obtain ⟨t, isTop, none, below⟩ := forest.rooted x b there
    refine ⟨t, ⟨isTop, ?_⟩, none, below⟩
    rintro rfl
    exact other (eq_of_leaf no_kids below)

end Changes

/-! ## What is below a node after a change -/

section Below

variable {r r' : ι → ι → Prop} {x y : ι}

/-- A new edge to a leaf adds the leaf. -/
theorem reflTransGen_attach (attached : ∀ x y, r' x y ↔ r x y ∨ x = i ∧ y = j)
    (leaf : ∀ k, ¬ r' j k) (above : ReflTransGen r x i) :
    ReflTransGen r' x y ↔ ReflTransGen r x y ∨ y = j := by
  have old_path : ∀ {x y}, ReflTransGen r x y → ReflTransGen r' x y := fun {x y} =>
    ReflTransGen.mono (fun x y old => (attached x y).mpr (.inl old)) x y
  constructor
  · intro below
    induction below with
    | refl => exact .inl .refl
    | tail _ step ih =>
      rcases ih with old | last
      · rcases (attached _ _).mp step with step' | ⟨-, last⟩
        · exact .inl (old.tail step')
        · exact .inr last
      · exact absurd step (last ▸ leaf _)
  · rintro (old | rfl)
    · exact old_path old
    · exact (old_path above).tail ((attached _ _).mpr (.inr ⟨rfl, rfl⟩))

/-- Cutting off a leaf takes away nothing else. -/
theorem reflTransGen_detach (detached : ∀ x y, r' x y ↔ r x y ∧ y ≠ j) (leaf : ∀ k, ¬ r j k)
    (other : x ≠ j) : ReflTransGen r' x y ↔ ReflTransGen r x y ∧ y ≠ j := by
  constructor
  · intro below
    refine ⟨ReflTransGen.mono (fun x y new => ((detached x y).mp new).1) x y below, ?_⟩
    rcases below.cases_tail with same | ⟨z, -, last⟩
    · exact same ▸ other
    · exact ((detached z y).mp last).2
  · rintro ⟨below, notLeaf⟩
    induction below with
    | refl => exact .refl
    | tail _ step ih =>
      have before := ih fun same => leaf _ (same ▸ step)
      exact before.tail ((detached _ _).mpr ⟨step, notLeaf⟩)

end Below

/-! ## Preorder -/

section Preorder

/-- The nodes from `i` down to a depth, each before its children. -/
def preorder (kids : β → List ι) (node : ι → Option β) : ℕ → ι → List ι
  | 0, _ => []
  | n + 1, i =>
    match node i with
    | none => []
    | some b => i :: (kids b).flatMap (preorder kids node n)

variable {n m : ℕ}

theorem preorder_succ (there : node i = some b) :
    preorder kids node (n + 1) i = i :: (kids b).flatMap (preorder kids node n) := by
  rw [preorder, there]

theorem preorder_eq_nil (missing : node i = none) : preorder kids node n i = [] := by
  cases n with
  | zero => rfl
  | succ n => rw [preorder, missing]

theorem below_of_mem_preorder (mem : j ∈ preorder kids node n i) :
    ReflTransGen (Lists kids node) i j := by
  induction n generalizing i with
  | zero => cases mem
  | succ n ih =>
    cases there : node i with
    | none =>
      rw [preorder_eq_nil there] at mem
      cases mem
    | some b =>
      rw [preorder_succ there] at mem
      rcases mem_cons.mp mem with rfl | mem
      · exact .refl
      · obtain ⟨k, child, mem⟩ := mem_flatMap.mp mem
        exact .head (lists_of_eq_some there child) (ih mem)

theorem exists_of_mem_preorder (mem : j ∈ preorder kids node n i) : ∃ c, node j = some c := by
  induction n generalizing i with
  | zero => cases mem
  | succ n ih =>
    cases there : node i with
    | none =>
      rw [preorder_eq_nil there] at mem
      cases mem
    | some b =>
      rw [preorder_succ there] at mem
      rcases mem_cons.mp mem with rfl | mem
      · exact ⟨b, there⟩
      · obtain ⟨k, -, mem⟩ := mem_flatMap.mp mem
        exact ih mem

theorem mem_preorder_mono (le : n ≤ m) (mem : j ∈ preorder kids node n i) :
    j ∈ preorder kids node m i := by
  induction n generalizing i m with
  | zero => cases mem
  | succ n ih =>
    obtain ⟨m, rfl⟩ := Nat.exists_eq_add_of_le' (le_trans (Nat.le_add_left 1 n) le)
    cases there : node i with
    | none =>
      rw [preorder_eq_nil there] at mem
      cases mem
    | some b =>
      rw [preorder_succ there] at mem ⊢
      rcases mem_cons.mp mem with rfl | mem
      · exact mem_cons_self
      · obtain ⟨k, child, mem⟩ := mem_flatMap.mp mem
        apply mem_cons_of_mem
        exact mem_flatMap.mpr ⟨k, child, ih (Nat.le_of_succ_le_succ le) mem⟩

theorem exists_mem_preorder (below : ReflTransGen (Lists kids node) i j) (there : node j = some c) :
    ∃ n, j ∈ preorder kids node n i := by
  induction below using ReflTransGen.head_induction_on with
  | refl =>
    refine ⟨1, ?_⟩
    rw [preorder_succ there]
    exact mem_cons_self
  | head listed _ ih =>
    obtain ⟨n, mem⟩ := ih
    obtain ⟨b, found, child⟩ := listed
    refine ⟨n + 1, ?_⟩
    rw [preorder_succ found]
    exact mem_cons_of_mem _ (mem_flatMap.mpr ⟨_, child, mem⟩)

/-- Some depth is enough for finitely many nodes. -/
theorem exists_depth (l : List ι) : ∃ n, ∀ m, n ≤ m → ∀ j ∈ l, ∀ c, node j = some c →
    ReflTransGen (Lists kids node) i j → j ∈ preorder kids node m i := by
  induction l with
  | nil => exact ⟨0, fun _ _ j mem => absurd mem not_mem_nil⟩
  | cons k l ih =>
    obtain ⟨n, enough⟩ := ih
    have first : ∃ n, ∀ c, node k = some c → ReflTransGen (Lists kids node) i k →
        k ∈ preorder kids node n i := by
      by_cases is_below : ∃ c, node k = some c ∧ ReflTransGen (Lists kids node) i k
      · obtain ⟨c, there, below⟩ := is_below
        obtain ⟨n, mem⟩ := exists_mem_preorder below there
        exact ⟨n, fun _ _ _ => mem⟩
      · exact ⟨0, fun c there below => absurd ⟨c, there, below⟩ is_below⟩
    obtain ⟨n', enough'⟩ := first
    refine ⟨max n n', fun m le j mem c there below => ?_⟩
    rcases mem_cons.mp mem with rfl | mem
    · exact mem_preorder_mono (le_trans (le_max_right n n') le) (enough' c there below)
    · exact enough m (le_trans (le_max_left n n') le) j mem c there below

variable (forest : Forest kids up node top)

include forest

/-- Two nodes above the same one are above one another. -/
theorem Forest.total
    (first : ReflTransGen (Lists kids node) i k) (second : ReflTransGen (Lists kids node) j k) :
    ReflTransGen (Lists kids node) i j ∨ ReflTransGen (Lists kids node) j i := by
  have unique : Relator.RightUnique (Function.swap (Lists kids node)) :=
    fun _ _ _ a b => forest.eq_of_lists a b
  rcases ReflTransGen.total_of_right_unique unique (reflTransGen_swap.mpr first)
    (reflTransGen_swap.mpr second) with up | down
  · exact .inr (reflTransGen_swap.mp up)
  · exact .inl (reflTransGen_swap.mp down)

/-- The trees below two children of a node have nothing in common. -/
theorem Forest.disjoint (first : Lists kids node i j)
    (second : Lists kids node i k) (differ : j ≠ k) {x : ι}
    (below : ReflTransGen (Lists kids node) j x) : ¬ ReflTransGen (Lists kids node) k x := by
  have apart : ∀ {j k}, Lists kids node i j → Lists kids node i k → j ≠ k →
      ¬ ReflTransGen (Lists kids node) j k := by
    intro j k first second differ above
    -- the last step to `k` is from `i`, which then is below its child `j`
    rcases above.cases_tail with same | ⟨p, above', listed⟩
    · exact differ same.symm
    · obtain rfl := forest.eq_of_lists listed second
      exact forest.acyclic p (TransGen.head' first above')
  intro below'
  rcases forest.total below below' with down | up
  · exact apart first second differ down
  · exact apart second first (Ne.symm differ) up

theorem Forest.nodup_preorder :
    (preorder kids node n i).Nodup := by
  induction n generalizing i with
  | zero => exact nodup_nil
  | succ n ih =>
    cases there : node i with
    | none =>
      rw [preorder_eq_nil there]
      exact nodup_nil
    | some b =>
      rw [preorder_succ there, nodup_cons]
      constructor
      · intro again
        obtain ⟨k, child, mem⟩ := mem_flatMap.mp again
        exact forest.acyclic i
          (TransGen.head' (lists_of_eq_some there child) (below_of_mem_preorder mem))
      · rw [nodup_flatMap]
        refine ⟨fun k _ => ih, (forest.nodup i b there).imp_of_mem ?_⟩
        intro j k child child' differ x mem mem'
        exact forest.disjoint (lists_of_eq_some there child) (lists_of_eq_some there child') differ
          (below_of_mem_preorder mem) (below_of_mem_preorder mem')

end Preorder

/-! ## Induction from the leaves -/

section Induction

open scoped Classical in
/-- The nodes strictly below a node, in a finite forest. -/
noncomputable def descendants (kids : β → List ι) (node : ι → Option β) (nodes : Finset ι) (i : ι) :
    Finset ι := nodes.filter fun j => TransGen (Lists kids node) i j

open scoped Classical in
theorem mem_descendants {nodes : Finset ι} : j ∈ descendants kids node nodes i ↔
    j ∈ nodes ∧ TransGen (Lists kids node) i j := by
  rw [descendants, Finset.mem_filter]

/-- What holds of a node if it holds of its children holds of every node of a finite forest. -/
theorem Forest.induction {nodes : Finset ι} {P : ι → Prop} (forest : Forest kids up node top)
    (finite : ∀ i b, node i = some b → i ∈ nodes)
    (step : ∀ i, (∀ j, Lists kids node i j → P j) → P i) (i : ι) : P i := by
  -- by the number of nodes below
  induction count : (descendants kids node nodes i).card using Nat.strong_induction_on
    generalizing i with
  | _ n ih =>
    apply step
    intro j listed
    have fewer : descendants kids node nodes j ⊂ descendants kids node nodes i := by
      rw [Finset.ssubset_iff_of_subset]
      · obtain ⟨c, there, -⟩ := forest.child i j listed
        refine ⟨j, mem_descendants.mpr ⟨finite j c there, .single listed⟩, fun again => ?_⟩
        exact forest.acyclic j (mem_descendants.mp again).2
      · intro x mem
        obtain ⟨inside, below⟩ := mem_descendants.mp mem
        exact mem_descendants.mpr ⟨inside, .head listed below⟩
    exact ih _ (count ▸ Finset.card_lt_card fewer) j rfl

end Induction

end Darwin.Lib
