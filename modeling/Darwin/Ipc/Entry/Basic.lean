import Mathlib.Data.Finset.Sort

/-!
# Translation entries

A model of `ipc_entry.c`.  A space maps port names to entries.  Most entries are slots of a table,
named by their index and a generation number; the others stand in a splay tree, kept here as the
finite map it represents.  Slot 0 of the table is the head of the free list.  A table slot whose
index also occurs in the tree carries a collision bit, and `ipc_entry_dealloc` and
`ipc_entry_grow_table` move entries from the tree to the table.
-/

namespace Darwin.Ipc

/-- The result codes of the entry operations. -/
inductive KernReturn where
  | success
  | noSpace
  | resourceShortage
  /-- The bound on the iterations of a modelled loop was reached; the C loop has no such exit. -/
  | unfinished
  deriving DecidableEq, Repr

/-! ## Names and entry bits -/

/-- `MACH_PORT_INDEX`. -/
def portIndex (name : ℕ) : ℕ := name >>> 8

/-- `MACH_PORT_GEN`. -/
def portGen (name : ℕ) : BitVec 32 := BitVec.ofNat 32 ((name &&& 0xff) <<< 24)

/-- `MACH_PORT_MAKE`. -/
def portMake (index : ℕ) (gen : BitVec 32) : ℕ := (index <<< 8) ||| (gen >>> 24).toNat

/-- `MACH_PORT_DEAD`. -/
def portDead : ℕ := 2 ^ 32 - 1

def ieBitsTypeMask : BitVec 32 := 0x001f0000#32
def ieBitsCollision : BitVec 32 := 0x00800000#32
def ieBitsGenMask : BitVec 32 := 0xff000000#32
def ieBitsGenOne : BitVec 32 := 0x01000000#32
def ieBitsRightMask : BitVec 32 := 0x007fffff#32

/-- `IE_BITS_TYPE`; zero is `MACH_PORT_TYPE_NONE`. -/
def ieBitsType (bits : BitVec 32) : BitVec 32 := bits &&& ieBitsTypeMask

/-- `IE_BITS_GEN`. -/
def ieBitsGen (bits : BitVec 32) : BitVec 32 := bits &&& ieBitsGenMask

/-- An entry.  `index` is the union of `ie_next` in a free entry and `ie_request` in one in use. -/
structure IpcEntry where
  bits : BitVec 32
  object : ℕ
  index : ℕ
  deriving DecidableEq

/-- What a splay tree represents: a finite map from names to entries. -/
structure SplayTree where
  names : Finset ℕ
  entry : ℕ → IpcEntry

/-- The fields of an `ipc_space` that the entry operations use.  `tableNext` is the position in the
array of table sizes that `is_table_next` points to. -/
structure IpcSpace where
  table : ℕ → IpcEntry
  tableSize : ℕ
  tableNext : ℕ
  tree : SplayTree
  treeTotal : ℕ
  treeSmall : ℕ

/-- A pointer to an entry: a table slot, or the tree entry of a name. -/
inductive EntryRef where
  | slot (index : ℕ)
  | tree (name : ℕ)
  deriving DecidableEq, Repr

namespace IpcSpace

/-- The entry a pointer refers to. -/
def entry (s : IpcSpace) : EntryRef → IpcEntry
  | .slot index => s.table index
  | .tree name => s.tree.entry name

/-- Replace a table slot. -/
def setSlot (s : IpcSpace) (index : ℕ) (e : IpcEntry) : IpcSpace :=
  { s with table := Function.update s.table index e }

/-- `ipc_splay_tree_lookup`. -/
def treeLookup (s : IpcSpace) (name : ℕ) : Option EntryRef :=
  if name ∈ s.tree.names then some (.tree name) else none

/-- The first result of `ipc_splay_tree_bounds`: the largest name at or below `name`, or `~0`. -/
def treeLower (s : IpcSpace) (name : ℕ) : ℕ :=
  (s.tree.names.filter (· ≤ name)).max.unbotD portDead

/-- The second result of `ipc_splay_tree_bounds`: the smallest name at or above `name`, or zero. -/
def treeUpper (s : IpcSpace) (name : ℕ) : ℕ :=
  (s.tree.names.filter (name ≤ ·)).min.untopD 0

/-- `ipc_entry_tree_collision`: whether a name of the tree has the index of `name`. -/
def treeCollision (s : IpcSpace) (name : ℕ) : Bool :=
  let lower := s.treeLower name
  let upper := s.treeUpper name
  let index := portIndex name
  (lower ≠ portDead ∧ portIndex lower = index) ∨ (upper ≠ 0 ∧ portIndex upper = index)

/-- `ipc_entry_lookup`. -/
def lookup (s : IpcSpace) (name : ℕ) : Option EntryRef :=
  let index := portIndex name
  if index < s.tableSize then
    let bits := (s.table index).bits
    if ieBitsGen bits ≠ portGen name then
      if bits &&& ieBitsCollision ≠ 0#32 then s.treeLookup name else none
    else if ieBitsType bits = 0#32 then none
    else some (.slot index)
  else if s.treeTotal = 0 then none
  else s.treeLookup name

/-- `ipc_entry_get`: take the first slot of the free list. -/
def get (s : IpcSpace) : Except KernReturn (ℕ × EntryRef) × IpcSpace :=
  let firstFree := (s.table 0).index
  if firstFree = 0 then (.error .noSpace, s)
  else
    let freeEntry := s.table firstFree
    let s := s.setSlot 0 { s.table 0 with index := freeEntry.index }
    let gen := freeEntry.bits + ieBitsGenOne
    (.ok (portMake firstFree gen, .slot firstFree),
      s.setSlot firstFree { s.table firstFree with bits := gen, index := 0 })

/-! ## Growing the table -/

/-- The step of `ipc_entry_grow_table` for a tree entry whose index lies in the new part of the
table: move it there, or leave it when a smaller name has taken the slot. -/
def moveEntry (s : IpcSpace) (name : ℕ) : IpcSpace :=
  let index := portIndex name
  let e := s.table index
  if e.bits ≠ 0#32 then s.setSlot index { e with bits := e.bits ||| ieBitsCollision }
  else
    let t := s.tree.entry name
    { s.setSlot index ⟨t.bits ||| portGen name, t.object, t.index⟩ with
      tree := { s.tree with names := s.tree.names.erase name }
      treeTotal := s.treeTotal - 1 }

/-- The count of `is_tree_small`: the changes of index along an ordered list of names. -/
def countSmall : (names : List ℕ) → (index nosmall : ℕ) → ℕ
  | [], _, nosmall => nosmall
  | name :: names, index, nosmall =>
    if portIndex name ≠ index then countSmall names (portIndex name) (nosmall + 1)
    else countSmall names index nosmall

/-- The names of the tree with index in `[low, high)`, in order. -/
def namesBetween (s : IpcSpace) (low high : ℕ) : List ℕ :=
  (s.tree.names.filter fun name => portMake low 0#32 ≤ name ∧ name < portMake high 0#32).sort

/-- Chain `count` slots from `i - 1` down onto the free list that starts at `free`, leaving out
those in use. -/
def freeSlots (s : IpcSpace) : (count i free : ℕ) → IpcSpace × ℕ
  | 0, _, free => (s, free)
  | count + 1, i, free =>
    let e := s.table (i - 1)
    if e.bits = 0#32 then
      freeSlots (s.setSlot (i - 1) { e with bits := ieBitsGenMask, index := free }) count (i - 1)
        (i - 1)
    else freeSlots s count (i - 1) free

/-- The part of `ipc_entry_grow_table` that works on the new table, of `size` slots, where the old
one has `osize` and the next size is `nsize`. -/
def extendTable (s : IpcSpace) (osize size nsize nits : ℕ) : IpcSpace :=
  let s := { s with
    table := fun i => if osize ≤ i ∧ i < size then ⟨0#32, 0, 0⟩ else s.table i
    tableSize := size
    tableNext := nits }
  let s :=
    if s.treeTotal > 0 then
      let small := s.namesBetween size nsize
      let s := (s.namesBetween osize size).foldl moveEntry s
      { s with treeSmall := countSmall small 0 0 }
    else s
  let freed := s.freeSlots (size - osize) size (s.table 0).index
  freed.1.setSlot 0 { freed.1.table 0 with index := freed.2 }

/-- `ipc_entry_grow_table` for `ITS_SIZE_NONE`.  `sizes` is the array of table sizes and `memory
its` tells whether a table of the size at `its` can be allocated. -/
def growTable (sizes : ℕ → ℕ) (memory : ℕ → Bool) :
    (fuel : ℕ) → IpcSpace → KernReturn × IpcSpace
  | 0, s => (.unfinished, s)
  | fuel + 1, s =>
    let its := s.tableNext
    let size := sizes its
    let osize := sizes (its - 1)
    let nsize := sizes (its + 1)
    if osize = size then (.noSpace, s)
    else if memory its = false then (.resourceShortage, s)
    else
      let s := s.extendTable osize size nsize (its + 1)
      -- An entry has 16 bytes and a tree entry has 32.
      if s.treeSmall > 0 ∧ (nsize - size) * 16 < s.treeSmall * 32 then
        growTable sizes memory fuel s
      else (.success, s)

/-! ## Allocating a given name -/

/-! ## Deallocating an entry -/

/-- The branch of `ipc_entry_dealloc` for a slot with a collision: move one of the tree entries with
its index, chosen by `pick`, into the slot. -/
def replaceSlot (s : IpcSpace) (pick : Finset ℕ → ℕ) (index : ℕ) : IpcSpace :=
  let collisions := s.tree.names.filter fun name =>
    portMake index 0#32 ≤ name ∧ name < portMake (index + 1) 0#32
  let tname := pick collisions
  let t := s.tree.entry tname
  let bits := t.bits ||| portGen tname
  let bits := if (collisions.erase tname).Nonempty then bits ||| ieBitsCollision else bits
  { s.setSlot index ⟨bits, t.object, t.index⟩ with
    tree := { s.tree with names := s.tree.names.erase tname }
    treeTotal := s.treeTotal - 1 }

/-- `ipc_entry_dealloc`.  `pick` is the choice of `ipc_splay_tree_pick`. -/
def dealloc (s : IpcSpace) (sizes : ℕ → ℕ) (pick : Finset ℕ → ℕ) (name : ℕ) (ref : EntryRef) :
    IpcSpace :=
  let index := portIndex name
  let size := s.tableSize
  if index < size ∧ ref = .slot index then
    let e := s.table index
    if e.bits &&& ieBitsCollision ≠ 0#32 then s.replaceSlot pick index
    else
      let s := s.setSlot index { e with bits := e.bits &&& ieBitsGenMask, index := (s.table 0).index }
      s.setSlot 0 { s.table 0 with index := index }
  else
    let s := { s with
      tree := { s.tree with names := s.tree.names.erase name }
      treeTotal := s.treeTotal - 1 }
    if index < size then
      if s.treeCollision name = false then
        s.setSlot index { s.table index with bits := (s.table index).bits &&& ~~~ieBitsCollision }
      else s
    else if index < sizes s.tableNext ∧ s.treeCollision name = false then
      { s with treeSmall := s.treeSmall - 1 }
    else s

end IpcSpace

end Darwin.Ipc
