import Darwin.Lib.KeyedList
import Mathlib.Data.List.Count

/-!
# The folder tree of a catalog

A catalog holds the folders and files of a volume, each under the folder it is in and its name, and
for each of them a thread: an entry under its own id, without a name, that says where it is.  This
module says when the entries make up a tree, and that they still do after a node is added, removed
or put into another place.

## Main definitions

* `Tree` - the entries are the nodes and threads of a tree
* `Avoids` - the way from a folder to the root does not pass a node
-/

namespace Darwin.Hfs.Catalog

open List Darwin.Lib

/-- Folder or file. -/
inductive Kind where
  | folder
  | file
  deriving DecidableEq, Repr

/-- Where an entry is: under a folder, with a name; threads have none. -/
@[ext]
structure Place (N : Type*) where
  parent : ℕ
  name : Option N
  deriving DecidableEq, Repr

/-- What an entry is: a folder or file with its id, or the thread of one. -/
inductive Item (N : Type*) where
  | node (kind : Kind) (id : ℕ)
  | thread (kind : Kind) (target : Place N)
  deriving DecidableEq, Repr

variable {N : Type*}

/-- The way up from an id ends at the root folder. -/
inductive Reaches (l : List (Place N × Item N)) : ℕ → Prop
  | root : Reaches l 2
  | up {k : Place N} {kind : Kind} {n : ℕ} (inside : (k, .node kind n) ∈ l)
      (rest : Reaches l k.parent) : Reaches l n

/-- The way up from an id ends at the root folder, and does not pass the node `m`. -/
inductive Avoids (l : List (Place N × Item N)) (m : ℕ) : ℕ → Prop
  | root (other : m ≠ 2) : Avoids l m 2
  | up {k : Place N} {kind : Kind} {n : ℕ} (inside : (k, .node kind n) ∈ l) (other : m ≠ n)
      (rest : Avoids l m k.parent) : Avoids l m n

/-- The entries are the nodes and threads of a tree of folders and files. -/
structure Tree (l : List (Place N × Item N)) : Prop where
  distinct : DistinctKeys Prod.fst l
  threaded : ∀ k kind n, (k, .node kind n) ∈ l → (⟨n, none⟩, .thread kind k) ∈ l
  threads : ∀ k kind target, (k, .thread kind target) ∈ l →
    k.name = none ∧ (target, .node kind k.parent) ∈ l
  root : ∃ k, (k, .node .folder 2) ∈ l
  rootPlace : ∀ k kind, (k, .node kind 2) ∈ l → k.parent = 1
  parents : ∀ k kind n, (k, .node kind n) ∈ l → n ≠ 2 →
    k.name.isSome ∧ ∃ k', (k', .node .folder k.parent) ∈ l
  reaches : ∀ k kind n, (k, .node kind n) ∈ l → Reaches l n

/-- The number of entries in a folder other than its thread. -/
def children (l : List (Place N × Item N)) (n : ℕ) : ℕ :=
  l.countP fun e => e.1.parent = n ∧ e.1.name.isSome

/-- The number of nodes of a kind. -/
def nodes (l : List (Place N × Item N)) (kind : Kind) : ℕ :=
  l.countP fun e => match e.2 with
    | .node kind' _ => kind' = kind
    | .thread _ _ => false

section Tree

variable {l l' r : List (Place N × Item N)} {k k' : Place N} {kind kind' : Kind} {m n : ℕ}

/-- An id belongs to one node. -/
theorem Tree.eq_of_id (tree : Tree l) (inside : (k, .node kind n) ∈ l)
    (inside' : (k', .node kind' n) ∈ l) : k = k' ∧ kind = kind' := by
  have same := tree.distinct.eq_of_key (tree.threaded k kind n inside)
    (tree.threaded k' kind' n inside') rfl
  injection same with _ same
  injection same with h₁ h₂
  exact ⟨h₂, h₁⟩

theorem Reaches.mono (reaches : Reaches l n)
    (kept : ∀ k kind n, (k, .node kind n) ∈ l → ∃ k', k'.parent = k.parent ∧
      (k', .node kind n) ∈ l') : Reaches l' n := by
  induction reaches with
  | root => exact .root
  | @up k kind n inside rest ih =>
    obtain ⟨k', same, inside'⟩ := kept k kind n inside
    exact .up inside' (same ▸ ih)

/-- The way from a folder to the root passes folders only. -/
theorem Tree.avoids_of_file (tree : Tree l) (file : (k, .node .file m) ∈ l) (reaches : Reaches l n)
    (folder : ∃ k', (k', .node .folder n) ∈ l) : Avoids l m n := by
  have other : ∀ n, (∃ k', (k', .node .folder n) ∈ l) → m ≠ n := by
    rintro n ⟨k', folder⟩ rfl
    cases (tree.eq_of_id file folder).2
  induction reaches with
  | root => exact .root (other 2 folder)
  | @up k kind n inside rest ih =>
    by_cases top : n = 2
    · subst top
      exact .root (other 2 folder)
    · exact .up inside (other n folder) (ih (tree.parents k kind n inside top).2)

theorem Tree.perm (tree : Tree l) (perm : l.Perm l') : Tree l' := by
  have mem : ∀ e, e ∈ l' ↔ e ∈ l := fun e => perm.mem_iff.symm
  constructor
  case distinct => exact tree.distinct.perm perm
  case threaded =>
    intro k kind n inside
    exact (mem _).mpr (tree.threaded k kind n ((mem _).mp inside))
  case threads =>
    intro k kind target inside
    obtain ⟨noName, node⟩ := tree.threads k kind target ((mem _).mp inside)
    exact ⟨noName, (mem _).mpr node⟩
  case root =>
    obtain ⟨k, inside⟩ := tree.root
    exact ⟨k, (mem _).mpr inside⟩
  case rootPlace => exact fun k kind inside => tree.rootPlace k kind ((mem _).mp inside)
  case parents =>
    intro k kind n inside notRoot
    obtain ⟨named, k', folder⟩ := tree.parents k kind n ((mem _).mp inside) notRoot
    exact ⟨named, k', (mem _).mpr folder⟩
  case reaches =>
    intro k kind n inside
    refine (tree.reaches k kind n ((mem _).mp inside)).mono fun k₁ kind₁ n₁ inside₁ => ?_
    exact ⟨k₁, rfl, (mem _).mpr inside₁⟩

/-! ## Counting -/

theorem children_perm (perm : l.Perm l') (n : ℕ) : children l n = children l' n :=
  perm.countP_eq _

theorem nodes_perm (perm : l.Perm l') (kind : Kind) : nodes l kind = nodes l' kind :=
  perm.countP_eq _

theorem children_cons_node (named : k.name.isSome) (m : ℕ) :
    children ((k, .node kind n) :: l) m = children l m + if m = k.parent then 1 else 0 := by
  rw [children, countP_cons, children]
  by_cases same : m = k.parent
  · rw [if_pos same, if_pos]
    simp [same, named]
  · rw [if_neg same, if_neg]
    simpa using fun eq => absurd eq.symm same

theorem children_cons_noName (noName : k.name = none) (item : Item N) (m : ℕ) :
    children ((k, item) :: l) m = children l m := by
  rw [children, countP_cons, if_neg (by simp [noName]), children]
  rfl

theorem children_cons_elsewhere (elsewhere : k.parent ≠ m) (item : Item N) :
    children ((k, item) :: l) m = children l m := by
  rw [children, countP_cons, if_neg (by simp [elsewhere]), children]
  rfl

theorem nodes_cons_node (kind₁ : Kind) :
    nodes ((k, .node kind n) :: l) kind₁ = nodes l kind₁ + if kind = kind₁ then 1 else 0 := by
  rw [nodes, countP_cons, nodes]
  simp

theorem nodes_cons_thread (target : Place N) (kind₁ : Kind) :
    nodes ((k, .thread kind target) :: l) kind₁ = nodes l kind₁ := by
  rw [nodes, countP_cons, if_neg (by simp), nodes]
  rfl

/-- The id of a node. -/
def Item.id? : Item N → Option ℕ
  | .node _ id => some id
  | .thread _ _ => none

variable (tree : Tree l)

include tree

/-- There are not more nodes than ids. -/
theorem Tree.countP_le {bound : ℕ}
    (ids : ∀ k kind n, (k, .node kind n) ∈ l → n < bound) (p : Place N × Item N → Bool)
    (node : ∀ e ∈ l, p e → e.2.id?.isSome) : l.countP p ≤ bound := by
  have nodup : (l.filterMap fun e => e.2.id?).Nodup := by
    rw [List.Nodup, pairwise_filterMap]
    have entries : l.Nodup := List.Nodup.of_map _ tree.distinct
    refine entries.imp_of_mem ?_
    rintro ⟨k, item⟩ ⟨k', item'⟩ inside inside' other n id n' id' rfl
    cases item with
    | thread => cases id
    | node kind m =>
      cases item' with
      | thread => cases id'
      | node kind' m' =>
        obtain rfl : m = n := Option.some.inj id
        obtain rfl : m' = m := Option.some.inj id'
        obtain ⟨rfl, rfl⟩ := tree.eq_of_id inside inside'
        exact other rfl
  have below : (l.filterMap fun e => e.2.id?) ⊆ List.range bound := by
    intro n listed
    obtain ⟨⟨k, item⟩, inside, id⟩ := mem_filterMap.mp listed
    cases item with
    | thread => cases id
    | node kind m =>
      obtain rfl : m = n := Option.some.inj id
      exact mem_range.mpr (ids k kind m inside)
  calc l.countP p ≤ l.countP fun e => e.2.id?.isSome := countP_mono_left node
    _ = (l.filterMap fun e => e.2.id?).length := (length_filterMap_eq_countP ..).symm
    _ ≤ (List.range bound).length := (subperm_of_subset nodup below).length_le
    _ = bound := length_range

theorem Tree.children_le {bound : ℕ}
    (ids : ∀ k kind n, (k, .node kind n) ∈ l → n < bound) (m : ℕ) : children l m ≤ bound := by
  refine tree.countP_le ids _ ?_
  rintro ⟨k, item⟩ inside named
  cases item with
  | node => rfl
  | thread kind target =>
    -- threads have no names
    simp [(tree.threads k kind target inside).1] at named

theorem Tree.nodes_le {bound : ℕ}
    (ids : ∀ k kind n, (k, .node kind n) ∈ l → n < bound) (kind₁ : Kind) :
    nodes l kind₁ ≤ bound := by
  refine tree.countP_le ids _ ?_
  rintro ⟨k, item⟩ inside isNode
  cases item with
  | node => rfl
  | thread => cases isNode

/-- Nothing is in a folder that is not there. -/
theorem Tree.children_eq_zero (absent : ∀ k, (k, .node .folder m) ∉ l)
    (notTop : m ≠ 1) : children l m = 0 := by
  rw [children, countP_eq_zero]
  rintro ⟨k, item⟩ inside here
  simp only [decide_eq_true_eq] at here
  cases item with
  | node kind n =>
    by_cases top : n = 2
    · subst top
      exact notTop (here.1.symm.trans (tree.rootPlace k kind inside))
    · obtain ⟨-, k', folder⟩ := tree.parents k kind n inside top
      exact absent k' (here.1 ▸ folder)
  | thread kind target =>
    have named := here.2
    rw [(tree.threads k kind target inside).1] at named
    cases named

/-! ## Adding a node -/

/-- A new node, with its thread, in a folder. -/
theorem Tree.create (perm : l'.Perm ((k, .node kind n) :: (⟨n, none⟩, .thread kind k) :: l))
    (named : k.name.isSome) (folder : ∃ k', (k', .node .folder k.parent) ∈ l)
    (freshKey : ∀ e ∈ l, e.1 ≠ k) (freshId : ∀ e ∈ l, e.1 ≠ ⟨n, none⟩) : Tree l' := by
  have mem : ∀ e, e ∈ l' ↔ e = (k, .node kind n) ∨ e = (⟨n, none⟩, .thread kind k) ∨ e ∈ l := by
    intro e
    rw [perm.mem_iff, mem_cons, mem_cons]
  have kept : ∀ n, Reaches l n → Reaches l' n := fun n reaches =>
    reaches.mono fun k kind n inside => ⟨k, rfl, (mem _).mpr (.inr (.inr inside))⟩
  have notRoot : n ≠ 2 := by
    rintro rfl
    obtain ⟨k', inside⟩ := tree.root
    exact freshId _ (tree.threaded k' .folder 2 inside) rfl
  constructor
  case distinct =>
    refine DistinctKeys.perm ?_ perm.symm
    rw [distinctKeys_cons, distinctKeys_cons]
    refine ⟨fun e inside => ?_, freshId, tree.distinct⟩
    rcases mem_cons.mp inside with rfl | inside
    · intro same
      have same' : (⟨n, none⟩ : Place N) = k := same
      rw [← same'] at named
      cases named
    · exact freshKey e inside
  case threaded =>
    intro k₁ kind₁ n₁ inside
    rw [mem] at inside ⊢
    rcases inside with new | thread | old
    · injection new with h₁ h₂
      injection h₂ with h₂ h₃
      subst h₁ h₂ h₃
      exact .inr (.inl rfl)
    · cases thread
    · exact .inr (.inr (tree.threaded k₁ kind₁ n₁ old))
  case threads =>
    intro k₁ kind₁ target inside
    rw [mem] at inside
    rcases inside with new | thread | old
    · cases new
    · injection thread with h₁ h₂
      injection h₂ with h₂ h₃
      subst h₁ h₂ h₃
      exact ⟨rfl, (mem _).mpr (.inl rfl)⟩
    · obtain ⟨none, inside⟩ := tree.threads k₁ kind₁ target old
      exact ⟨none, (mem _).mpr (.inr (.inr inside))⟩
  case root =>
    obtain ⟨k', inside⟩ := tree.root
    exact ⟨k', (mem _).mpr (.inr (.inr inside))⟩
  case rootPlace =>
    intro k₁ kind₁ inside
    rcases (mem _).mp inside with new | thread | old
    · injection new with _ h₂
      injection h₂ with _ h₃
      exact absurd h₃.symm notRoot
    · cases thread
    · exact tree.rootPlace k₁ kind₁ old
  case parents =>
    intro k₁ kind₁ n₁ inside other
    rcases (mem _).mp inside with new | thread | old
    · injection new with h₁ _
      subst h₁
      obtain ⟨k', folder⟩ := folder
      exact ⟨named, k', (mem _).mpr (.inr (.inr folder))⟩
    · cases thread
    · obtain ⟨named, k', folder⟩ := tree.parents k₁ kind₁ n₁ old other
      exact ⟨named, k', (mem _).mpr (.inr (.inr folder))⟩
  case reaches =>
    intro k₁ kind₁ n₁ inside
    rcases (mem _).mp inside with new | thread | old
    · injection new with h₁ h₂
      injection h₂ with _ h₃
      subst h₁ h₃
      obtain ⟨k', folder⟩ := folder
      exact .up inside (kept _ (tree.reaches k' .folder k₁.parent folder))
    · cases thread
    · exact kept n₁ (tree.reaches k₁ kind₁ n₁ old)

/-! ## Removing a node -/

/-- A node with nothing in it is removed, with its thread. -/
theorem Tree.delete
    (perm : l.Perm ((k, .node kind n) :: (⟨n, none⟩, .thread kind k) :: l')) (notRoot : n ≠ 2)
    (empty : ∀ e ∈ l, e.1.name.isSome → e.1.parent ≠ n) : Tree l' := by
  have mem : ∀ e, e ∈ l ↔ e = (k, .node kind n) ∨ e = (⟨n, none⟩, .thread kind k) ∨ e ∈ l' := by
    intro e
    rw [perm.mem_iff, mem_cons, mem_cons]
  have distinct := tree.distinct.perm perm
  rw [distinctKeys_cons, distinctKeys_cons] at distinct
  have node : (k, .node kind n) ∈ l := (mem _).mpr (.inl rfl)
  -- a node that stays is still there, and not in the removed one
  have stays : ∀ k₁ kind₁ n₁, (k₁, .node kind₁ n₁) ∈ l → n₁ ≠ n → (k₁, .node kind₁ n₁) ∈ l' := by
    intro k₁ kind₁ n₁ inside other
    rcases (mem _).mp inside with removed | thread | inside
    · injection removed with _ h₂
      injection h₂ with _ h₃
      exact absurd h₃ other
    · cases thread
    · exact inside
  have inRest : ∀ e ∈ l', e ∈ l := fun e inside => (mem e).mpr (.inr (.inr inside))
  have otherId : ∀ k₁ kind₁ n₁, (k₁, .node kind₁ n₁) ∈ l' → n₁ ≠ n := by
    rintro k₁ kind₁ n₁ inside rfl
    obtain ⟨rfl, -⟩ := tree.eq_of_id node (inRest _ inside)
    exact distinct.1 _ (mem_cons_of_mem _ inside) rfl
  have kept : ∀ x, Reaches l x → x ≠ n → Reaches l' x := by
    intro x reaches
    induction reaches with
    | root => exact fun _ => .root
    | @up k₁ kind₁ x inside rest ih =>
      intro other
      by_cases top : x = 2
      · subst top
        exact .root
      · have inFolder := tree.parents k₁ kind₁ x inside top
        exact .up (stays k₁ kind₁ x inside other) (ih (empty _ inside inFolder.1))
  constructor
  case distinct => exact distinct.2.2
  case threaded =>
    intro k₁ kind₁ n₁ inside
    have thread := tree.threaded k₁ kind₁ n₁ (inRest _ inside)
    rcases (mem _).mp thread with node' | removed | stays
    · cases node'
    · injection removed with h₁ _
      exact absurd (congrArg Place.parent h₁) (otherId k₁ kind₁ n₁ inside)
    · exact stays
  case threads =>
    intro k₁ kind₁ target inside
    obtain ⟨noName, node'⟩ := tree.threads k₁ kind₁ target (inRest _ inside)
    refine ⟨noName, stays target kind₁ k₁.parent node' fun same => ?_⟩
    refine distinct.2.1 _ inside ?_
    exact Place.ext same noName
  case root =>
    obtain ⟨k', inside⟩ := tree.root
    exact ⟨k', stays k' .folder 2 inside notRoot.symm⟩
  case rootPlace => exact fun k₁ kind₁ inside => tree.rootPlace k₁ kind₁ (inRest _ inside)
  case parents =>
    intro k₁ kind₁ n₁ inside other
    obtain ⟨named, k', folder⟩ := tree.parents k₁ kind₁ n₁ (inRest _ inside) other
    exact ⟨named, k', stays k' .folder k₁.parent folder (empty _ (inRest _ inside) named)⟩
  case reaches =>
    intro k₁ kind₁ n₁ inside
    exact kept n₁ (tree.reaches k₁ kind₁ n₁ (inRest _ inside)) (otherId k₁ kind₁ n₁ inside)

/-! ## Moving a node -/

/-- A node keeps its place but for the name, or goes into a folder that it is not above of: every
way still ends at the root. -/
theorem Tree.move_reaches (node : (k, .node kind n) ∈ l) (node' : (k', .node kind n) ∈ l')
    (stays : ∀ k₁ kind₁ n₁, (k₁, .node kind₁ n₁) ∈ l → n₁ ≠ n → (k₁, .node kind₁ n₁) ∈ l')
    (way : k'.parent = k.parent ∨ Avoids l n k'.parent) {x : ℕ} (reaches : Reaches l x) :
    Reaches l' x := by
  rcases way with same | avoids
  · refine reaches.mono fun k₁ kind₁ n₁ inside => ?_
    by_cases moved : n₁ = n
    · subst moved
      obtain ⟨rfl, rfl⟩ := tree.eq_of_id node inside
      exact ⟨k', same, node'⟩
    · exact ⟨k₁, rfl, stays k₁ kind₁ n₁ inside moved⟩
  · -- first the way from the new place, which does not pass the node
    have above : ∀ y, Avoids l n y → Reaches l' y := by
      intro y avoids
      induction avoids with
      | root => exact .root
      | @up k₁ kind₁ y inside other rest ih =>
        exact .up (stays k₁ kind₁ y inside other.symm) ih
    induction reaches with
    | root => exact .root
    | @up k₁ kind₁ y inside rest ih =>
      by_cases moved : y = n
      · subst moved
        exact .up node' (above _ avoids)
      · exact .up (stays k₁ kind₁ y inside moved) ih

/-- A node, with its thread, is put into another place. -/
theorem Tree.move (before : l.Perm ((k, .node kind n) :: (⟨n, none⟩, .thread kind k) :: r))
    (after : l'.Perm ((k', .node kind n) :: (⟨n, none⟩, .thread kind k') :: r))
    (fresh : ∀ e ∈ r, e.1 ≠ k') (other : (⟨n, none⟩ : Place N) ≠ k')
    (root : n = 2 → k'.parent = 1)
    (folder : n ≠ 2 → k'.name.isSome ∧ ∃ k'', (k'', .node .folder k'.parent) ∈ l)
    (way : n ≠ 2 → k'.parent = k.parent ∨ Avoids l n k'.parent) : Tree l' := by
  have mem : ∀ e, e ∈ l ↔ e = (k, .node kind n) ∨ e = (⟨n, none⟩, .thread kind k) ∨ e ∈ r := by
    intro e
    rw [before.mem_iff, mem_cons, mem_cons]
  have mem' : ∀ e, e ∈ l' ↔ e = (k', .node kind n) ∨ e = (⟨n, none⟩, .thread kind k') ∨ e ∈ r := by
    intro e
    rw [after.mem_iff, mem_cons, mem_cons]
  have node : (k, .node kind n) ∈ l := (mem _).mpr (.inl rfl)
  have node' : (k', .node kind n) ∈ l' := (mem' _).mpr (.inl rfl)
  have inRest : ∀ e ∈ r, e ∈ l := fun e inside => (mem e).mpr (.inr (.inr inside))
  have inRest' : ∀ e ∈ r, e ∈ l' := fun e inside => (mem' e).mpr (.inr (.inr inside))
  have distinct := tree.distinct.perm before
  rw [distinctKeys_cons, distinctKeys_cons] at distinct
  have stays : ∀ k₁ kind₁ n₁, (k₁, .node kind₁ n₁) ∈ l → n₁ ≠ n → (k₁, .node kind₁ n₁) ∈ r := by
    intro k₁ kind₁ n₁ inside otherId
    rcases (mem _).mp inside with moved | thread | inside
    · injection moved with _ h₂
      injection h₂ with _ h₃
      exact absurd h₃ otherId
    · cases thread
    · exact inside
  have otherId : ∀ k₁ kind₁ n₁, (k₁, .node kind₁ n₁) ∈ r → n₁ ≠ n := by
    rintro k₁ kind₁ n₁ inside rfl
    obtain ⟨rfl, -⟩ := tree.eq_of_id node (inRest _ inside)
    exact distinct.1 _ (mem_cons_of_mem _ inside) rfl
  -- a folder is still there, if perhaps in another place
  have folders : ∀ m, (∃ k₁, (k₁, .node .folder m) ∈ l) → ∃ k₁, (k₁, .node .folder m) ∈ l' := by
    rintro m ⟨k₁, inside⟩
    by_cases moved : m = n
    · subst moved
      obtain ⟨-, rfl⟩ := tree.eq_of_id node inside
      exact ⟨k', node'⟩
    · exact ⟨k₁, inRest' _ (stays k₁ .folder m inside moved)⟩
  have reaches : ∀ x, Reaches l x → Reaches l' x := by
    intro x
    refine tree.move_reaches node node'
      (fun k₁ kind₁ n₁ inside otherId => inRest' _ (stays k₁ kind₁ n₁ inside otherId)) ?_
    by_cases top : n = 2
    · subst top
      exact .inl ((root rfl).trans (tree.rootPlace k kind node).symm)
    · exact way top
  constructor
  case distinct =>
    refine DistinctKeys.perm ?_ after.symm
    rw [distinctKeys_cons, distinctKeys_cons]
    refine ⟨fun e inside => ?_, distinct.2⟩
    rcases mem_cons.mp inside with rfl | inside
    · exact other
    · exact fresh e inside
  case threaded =>
    intro k₁ kind₁ n₁ inside
    rcases (mem' _).mp inside with moved | thread | inside
    · injection moved with h₁ h₂
      injection h₂ with h₂ h₃
      subst h₁ h₂ h₃
      exact (mem' _).mpr (.inr (.inl rfl))
    · cases thread
    have thread := tree.threaded k₁ kind₁ n₁ (inRest _ inside)
    rcases (mem _).mp thread with node₁ | moved | stays
    · cases node₁
    · injection moved with h₁ _
      exact absurd (congrArg Place.parent h₁) (otherId k₁ kind₁ n₁ inside)
    · exact inRest' _ stays
  case threads =>
    intro k₁ kind₁ target inside
    rcases (mem' _).mp inside with moved | thread | inside
    · cases moved
    · injection thread with h₁ h₂
      injection h₂ with h₂ h₃
      subst h₁ h₂ h₃
      exact ⟨rfl, node'⟩
    · obtain ⟨noName, node₁⟩ := tree.threads k₁ kind₁ target (inRest _ inside)
      refine ⟨noName, inRest' _ (stays target kind₁ k₁.parent node₁ fun same => ?_)⟩
      exact distinct.2.1 _ inside (Place.ext same noName)
  case root => exact folders 2 tree.root
  case rootPlace =>
    intro k₁ kind₁ inside
    rcases (mem' _).mp inside with moved | thread | inside
    · injection moved with h₁ h₂
      injection h₂ with _ h₃
      subst h₁
      exact root h₃.symm
    · cases thread
    · exact tree.rootPlace k₁ kind₁ (inRest _ inside)
  case parents =>
    intro k₁ kind₁ n₁ inside notRoot
    rcases (mem' _).mp inside with moved | thread | inside
    · injection moved with h₁ h₂
      injection h₂ with _ h₃
      subst h₁ h₃
      obtain ⟨named, exists_⟩ := folder notRoot
      exact ⟨named, folders k₁.parent exists_⟩
    · cases thread
    · obtain ⟨named, exists_⟩ := tree.parents k₁ kind₁ n₁ (inRest _ inside) notRoot
      exact ⟨named, folders k₁.parent exists_⟩
  case reaches =>
    intro k₁ kind₁ n₁ inside
    rcases (mem' _).mp inside with moved | thread | inside
    · injection moved with _ h₂
      injection h₂ with _ h₃
      subst h₃
      exact reaches n₁ (tree.reaches k kind n₁ node)
    · cases thread
    · exact reaches n₁ (tree.reaches k₁ kind₁ n₁ (inRest _ inside))

end Tree

end Darwin.Hfs.Catalog
