import Mathlib.Logic.Function.Basic
import Mathlib.Data.Nat.Notation
import Mathlib.Tactic.SplitIfs

/-!
# B-tree files

The data model of the B-tree module: the nodes of a tree file, the control block of an open tree,
and the access to nodes (`BTreesPrivate.h`, `BTreeNodeOps.c`).  The records of a node are kept as a
list; what the map record of a header or map node holds is kept beside them.  Nodes are modified in
the block cache, so a change is visible as soon as it is made.
-/

namespace Darwin.Hfs

/-- The result codes of the B-tree module. -/
inductive BTErr where
  | fsBTInvalidHeaderErr
  | fsBTBadRotateErr
  | fsBTInvalidNodeErr
  | fsBTRecordTooLargeErr
  | fsBTRecordNotFoundErr
  | fsBTDuplicateRecordErr
  | fsBTFullErr
  | fsBTEmptyErr
  | fsBTNoMoreMapNodesErr
  | fsBTBadNodeType
  | fsBTInvalidKeyLengthErr
  | fsBTStartOfIterationErr
  | fsBTEndOfIterationErr
  /-- An error of a file system callback. -/
  | ioErr (code : ℕ)
  /-- The bound on the iterations of a modelled loop was reached; the C loop has no such exit. -/
  | unfinished
  deriving DecidableEq, Repr

/-- The types of a node. -/
inductive NodeKind where
  | leaf
  | index
  | header
  | map
  deriving DecidableEq, Repr

/-- A node with records of type `R`.  The map record is the third record of a header node and the
first of a map node: `mapSize` bytes, read as 16-bit words. -/
structure Node (R : Type*) where
  fLink : ℕ
  bLink : ℕ
  kind : NodeKind
  height : ℕ
  records : List R
  mapSize : ℕ
  mapWords : ℕ → BitVec 16

/-- The control block of an open tree, with the nodes of its file. -/
structure BTree (R : Type*) where
  nodeSize : ℕ
  maxKeyLength : ℕ
  /-- `kBTBigKeysMask`: the key length field has 16 bits. -/
  bigKeys : Bool
  /-- `kBTVariableIndexKeysMask`: index keys have the length of the key they copy. -/
  variableIndexKeys : Bool
  treeDepth : ℕ
  rootNode : ℕ
  leafRecords : ℕ
  firstLeafNode : ℕ
  lastLeafNode : ℕ
  totalNodes : ℕ
  freeNodes : ℕ
  /-- The logical end of the tree file, in bytes. -/
  fcbEOF : ℕ
  nodes : ℕ → Node R

variable {R : Type*}

/-- The errors that fetching a node gives: of the callback, or of the check of a node that comes
from disk. -/
abbrev FetchErrors (R : Type*) := BTree R → ℕ → Option BTErr

/-- `GetNode`. -/
def BTree.getNode (t : BTree R) (io : FetchErrors R) (nodeNum : ℕ) : Except BTErr (Node R) :=
  if nodeNum ≥ t.totalNodes then .error .fsBTInvalidNodeErr
  else
    match io t nodeNum with
    | some e => .error e
    | none => .ok (t.nodes nodeNum)

/-- Replace a node in the block cache. -/
def BTree.setNode (t : BTree R) (nodeNum : ℕ) (node : Node R) : BTree R :=
  { t with nodes := Function.update t.nodes nodeNum node }

/-- A node cleared to zeroes, as `GetNewNode` and `ClearNode` leave it. -/
def Node.cleared : Node R where
  fLink := 0
  bLink := 0
  kind := .index
  height := 0
  records := []
  mapSize := 0
  mapWords := fun _ => 0#16

@[simp] theorem BTree.setNode_nodes_self (t : BTree R) (n : ℕ) (node : Node R) :
    (t.setNode n node).nodes n = node := by
  simp [BTree.setNode]

theorem BTree.setNode_nodes_of_ne {n m : ℕ} (other : m ≠ n) (t : BTree R) (node : Node R) :
    (t.setNode n node).nodes m = t.nodes m := by
  simp [BTree.setNode, other]

end Darwin.Hfs
