import Mathlib.Order.Fin.Basic
import Mathlib.Algebra.Order.Ring.Int

/-!
# The splay tree of a space

A model of `ipc_splay.c`.  Between calls the tree is kept unassembled: a middle tree with the root
of the last lookup, and the left and right trees that the top-down splay has built.  In each of
these one field is not yet set, the `rchild` of the largest entry on the left and the `lchild` of
the smallest on the right; such a tree is a list of its entries along the path to that field, the
entry that holds the field first.  The list is empty where `ist_ltreep` points at `ist_ltree`
itself.

## Main definitions

* `SplayTree.primLookup`, `SplayTree.primAssemble`: the splaying
* `SplayState.lookup`, `insert`, `delete`, `split`, `join`, `pick`, `bounds`: the operations
-/

namespace Darwin.Ipc.Splay

variable {κ α : Type*}

/-- A tree of entries, as `ite_lchild` and `ite_rchild` link them; `nil` is `ITE_NULL`. -/
inductive Tree (κ α : Type*) where
  | nil
  | node (lchild : Tree κ α) (name : κ) (entry : α) (rchild : Tree κ α)
  deriving DecidableEq, Repr

/-- The tree is not `ITE_NULL`. -/
def Tree.isNode : Tree κ α → Bool
  | .nil => false
  | .node .. => true

/-- An entry of a left tree whose `rchild` is the path onwards. -/
structure LeftEntry (κ α : Type*) where
  lchild : Tree κ α
  name : κ
  entry : α

/-- An entry of a right tree whose `lchild` is the path onwards. -/
structure RightEntry (κ α : Type*) where
  name : κ
  entry : α
  rchild : Tree κ α

/-- A left tree, after `*ist_ltreep = tree`. -/
def plugLeft : List (LeftEntry κ α) → Tree κ α → Tree κ α
  | [], tree => tree
  | last :: rest, tree => plugLeft rest (.node last.lchild last.name last.entry tree)

/-- A right tree, after `*ist_rtreep = tree`. -/
def plugRight : List (RightEntry κ α) → Tree κ α → Tree κ α
  | [], tree => tree
  | last :: rest, tree => plugRight rest (.node tree last.name last.entry last.rchild)

/-- The three trees of a top-down splay. -/
structure Fragments (κ α : Type*) where
  tree : Tree κ α
  left : List (LeftEntry κ α)
  right : List (RightEntry κ α)

section Splaying

variable [LinearOrder κ]

/-- The loop of `ipc_splay_prim_lookup`, from the left and right trees built so far. -/
def primLookup (name : κ) :
    Tree κ α → List (LeftEntry κ α) → List (RightEntry κ α) → Fragments κ α
  | .nil, left, right => ⟨.nil, left, right⟩
  | .node lchild tname entry rchild, left, right =>
    if name = tname then ⟨.node lchild tname entry rchild, left, right⟩
    else if name < tname then
      match lchild with
      | .nil => ⟨.node .nil tname entry rchild, left, right⟩
      | .node ll lname lentry lr =>
        if name < lname ∧ ll.isNode then
          -- rotate_right, then link_right of the entry that has come up
          primLookup name ll left (⟨lname, lentry, .node lr tname entry rchild⟩ :: right)
        else if name > lname ∧ lr.isNode then
          primLookup name lr (⟨ll, lname, lentry⟩ :: left) (⟨tname, entry, rchild⟩ :: right)
        else primLookup name (.node ll lname lentry lr) left (⟨tname, entry, rchild⟩ :: right)
    else
      match rchild with
      | .nil => ⟨.node lchild tname entry .nil, left, right⟩
      | .node rl rname rentry rr =>
        if name > rname ∧ rr.isNode then
          -- rotate_left, then link_left of the entry that has come up
          primLookup name rr (⟨.node lchild tname entry rl, rname, rentry⟩ :: left) right
        else if name < rname ∧ rl.isNode then
          primLookup name rl (⟨lchild, tname, entry⟩ :: left) (⟨rname, rentry, rr⟩ :: right)
        else primLookup name (.node rl rname rentry rr) (⟨lchild, tname, entry⟩ :: left) right

/-- `ipc_splay_prim_assemble`. -/
def primAssemble (parts : Fragments κ α) : Tree κ α :=
  match parts.tree with
  | .nil => .nil
  | .node lchild name entry rchild =>
    .node (plugLeft parts.left lchild) name entry (plugRight parts.right rchild)

end Splaying

/-! ## The operations -/

/-- A splay tree between calls: its three trees and the name of the last lookup.  Where the middle
tree is null nothing else is read. -/
structure SplayState (κ α : Type*) extends Fragments κ α where
  name : κ

namespace SplayState

variable [LinearOrder κ] [BoundedOrder κ]

/-- The name at the root of a tree. -/
def rootName (default : κ) : Tree κ α → κ
  | .nil => default
  | .node _ name _ _ => name

/-- A tree that is put back together, looked up last under the name of its root. -/
def assembled (s : SplayState κ α) (tree : Tree κ α) : SplayState κ α :=
  ⟨⟨tree, [], []⟩, rootName s.name tree⟩

/-- `ipc_splay_tree_init`. -/
def init (name : κ) : SplayState κ α := ⟨⟨.nil, [], []⟩, name⟩

/-- The beginning of the operations on a nonempty tree: splay for `name`, unless that was the name
of the last lookup. -/
def resplay (s : SplayState κ α) (name : κ) : SplayState κ α :=
  if s.name ≠ name then ⟨primLookup name (primAssemble s.toFragments) [] [], name⟩ else s

/-- `ipc_splay_tree_pick`. -/
def pick (s : SplayState κ α) : Option (κ × α) :=
  match s.tree with
  | .nil => none
  | .node _ name entry _ => some (name, entry)

/-- `ipc_splay_tree_lookup`. -/
def lookup (s : SplayState κ α) (name : κ) : Option α × SplayState κ α :=
  match s.tree with
  | .nil => (none, s)
  | .node .. =>
    let s := s.resplay name
    match s.tree with
    | .nil => (none, s)
    | .node _ rname entry _ => (if name ≠ rname then none else some entry, s)

/-- `ipc_splay_tree_insert`. -/
def insert (s : SplayState κ α) (name : κ) (entry : α) : SplayState κ α :=
  match s.tree with
  | .nil => ⟨⟨.node .nil name entry .nil, [], []⟩, name⟩
  | .node .. =>
    let s := s.resplay name
    if name < rootName name s.tree then
      ⟨⟨.node (plugLeft s.left .nil) name entry (plugRight s.right s.tree), [], []⟩, name⟩
    else ⟨⟨.node (plugLeft s.left s.tree) name entry (plugRight s.right .nil), [], []⟩, name⟩

/-- The tree that `ipc_splay_tree_delete` makes of the trees on both sides of the entry deleted. -/
def mergeSides (ltree rtree : Tree κ α) : Tree κ α :=
  match ltree with
  | .nil => rtree
  | .node .. =>
    match rtree with
    | .nil => ltree
    | .node .. =>
      match primAssemble (primLookup ⊤ ltree [] []) with
      | .nil => rtree
      | .node lchild name entry _ => .node lchild name entry rtree

/-- `ipc_splay_tree_delete`. -/
def delete (s : SplayState κ α) (name : κ) : SplayState κ α :=
  let s := s.resplay name
  match s.tree with
  | .nil => s
  | .node lchild _ _ rchild =>
    s.assembled (mergeSides (plugLeft s.left lchild) (plugRight s.right rchild))

/-- `ipc_splay_tree_split`: the tree of the names from `name` on, and that of the smaller ones. -/
def split (s : SplayState κ α) (name : κ) : SplayState κ α × SplayState κ α :=
  match s.tree with
  | .nil => (s, init s.name)
  | .node .. =>
    let s := s.resplay name
    match s.tree with
    | .nil => (s, init s.name)
    | .node lchild rname entry rchild =>
      if rname < name then
        -- the root goes into the small tree
        (s.assembled (plugRight s.right .nil),
          s.assembled (.node (plugLeft s.left lchild) rname entry rchild))
      else
        (⟨⟨.node .nil rname entry rchild, [], s.right⟩, name⟩, s.assembled (plugLeft s.left lchild))

/-- `ipc_splay_tree_join`: the tree with the entries of `small` added. -/
def join (s small : SplayState κ α) : SplayState κ α :=
  match small.tree with
  | .nil => s
  | .node .. =>
    let sroot := primAssemble small.toFragments
    match s.tree with
    | .nil => s.assembled sroot
    | .node .. =>
      match primAssemble (s.resplay ⊥).toFragments with
      | .nil => s.assembled sroot
      | .node _ name entry rchild => s.assembled (.node sroot name entry rchild)

/-- `ipc_splay_tree_bounds`.  The name next to the root on either side is that of the entry which
`ist_ltreep` or `ist_rtreep` points into. -/
def bounds (s : SplayState κ α) (name : κ) : (κ × κ) × SplayState κ α :=
  match s.tree with
  | .nil => ((⊤, ⊥), s)
  | .node .. =>
    let s := s.resplay name
    let rname := rootName name s.tree
    let lower :=
      if rname ≤ name then rname
      else match s.left with
        | [] => ⊤
        | last :: _ => last.name
    let upper :=
      if name ≤ rname then rname
      else match s.right with
        | [] => ⊥
        | last :: _ => last.name
    ((lower, upper), s)

end SplayState

/-- `mach_port_t`. -/
abbrev MachPort := Fin (2 ^ 32)

scoped instance neZero_machPort : NeZero (2 ^ 32) := ⟨by decide⟩

end Darwin.Ipc.Splay
