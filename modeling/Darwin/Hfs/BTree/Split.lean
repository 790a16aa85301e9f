import Darwin.Hfs.BTree.Allocate

/-!
# Splitting a node

A model of `SplitLeft` and `RotateLeft` (`BTreeTreeOps.c`) with the node operations they use
(`BTreeNodeOps.c`).  A record that does not fit in its node makes the tree put a fresh node before
it, and records are rotated from the full node to the fresh one until the two are balanced.

## Main results

- `splitLeft_places_iff`: the split places the new record exactly if the records, the new one among
  them, can be cut into two runs that fit in a node each.
-/

namespace Darwin.Hfs

open List BTree

/-- A record of a node: the bytes of its key, with length field and padding, and those of its data. -/
abbrev Record := List (BitVec 8)

/-- A key.  Its length field holds the number of the bytes that follow it. -/
structure BTreeKey where
  content : List (BitVec 8)
  deriving DecidableEq

/-! ## Sizes -/

section Sizes

variable {R : Type*}

/-- The pad byte that follows an odd size. -/
def padOdd (size : ℕ) : ℕ := if size % 2 = 1 then size + 1 else size

/-- `sizeof (BTNodeDescriptor)`. -/
def nodeDescriptorSize : ℕ := 14

/-- The size of the length field of a key: 8 bits in HFS and 16 bits in HFS+. -/
def BTree.lengthFieldSize (t : BTree R) : ℕ := if t.bigKeys then 2 else 1

/-- `GetKeyLength`: the length a key has in a node of the given kind. -/
def BTree.getKeyLength (t : BTree R) (key : BTreeKey) (forLeafNode : Bool) : ℕ :=
  if forLeafNode || t.variableIndexKeys then key.content.length else t.maxKeyLength

/-- `CalcKeyRecordSize`. -/
def calcKeyRecordSize (keySize recSize : ℕ) : ℕ := (padOdd keySize + padOdd recSize) % 2 ^ 16

/-- `CheckInsertParams`: the limit on the size of a key with its record. -/
def BTree.checkInsertParams (t : BTree R) (key : BTreeKey) (recordLen : ℕ) : Except BTErr Unit :=
  if calcKeyRecordSize (key.content.length + t.lengthFieldSize) recordLen > t.nodeSize >>> 1 then
    .error .fsBTRecordTooLargeErr
  else .ok ()

/-- The offset of the free space of a node. -/
def freeOffset (records : List Record) : ℕ := nodeDescriptorSize + (records.map List.length).sum

/-- `GetNodeFreeSize`, in 16 bits. -/
def getNodeFreeSize (nodeSize : ℕ) (node : Node Record) : ℕ :=
  (nodeSize + 2 ^ 16 - freeOffset node.records - node.records.length <<< 1 - 2) % 2 ^ 16

/-- `GetRecordSize`. -/
def getRecordSize (node : Node Record) (index : ℕ) : ℕ := (node.records.getD index []).length

end Sizes

/-! ## Records of a node -/

section Records

/-- `InsertRecord`: `none` if the record does not fit. -/
def insertRecord (nodeSize : ℕ) (node : Node Record) (index : ℕ) (record : Record) :
    Option (Node Record) :=
  if getNodeFreeSize nodeSize node < record.length + 2 then none
  else some { node with records := node.records.insertIdx index record }

/-- `DeleteRecord`. -/
def deleteRecord (node : Node Record) (index : ℕ) : Node Record :=
  { node with records := node.records.eraseIdx index }

/-- The size of a key with its length field and pad byte, in 16 bits. -/
def BTree.paddedKeySize (t : BTree Record) (keyLength : ℕ) : ℕ :=
  padOdd ((keyLength + t.lengthFieldSize) % 2 ^ 16) % 2 ^ 16

/-- The record that `InsertKeyRecord` builds: the length field, the key, cleared pad bytes up to the
size of the key, and the data. -/
def BTree.keyRecord (t : BTree Record) (key : BTreeKey) (keyLength : ℕ) (data : Record) : Record :=
  let lengthField : List (BitVec 8) :=
    if t.bigKeys then [BitVec.ofNat 8 (keyLength / 256), BitVec.ofNat 8 keyLength]
    else [BitVec.ofNat 8 keyLength]
  lengthField ++ key.content
    ++ List.replicate (t.paddedKeySize keyLength - t.lengthFieldSize - key.content.length) 0#8
    ++ data

/-- `InsertKeyRecord`: `none` if the record does not fit. -/
def BTree.insertKeyRecord (t : BTree Record) (node : Node Record) (index : ℕ) (key : BTreeKey)
    (keyLength : ℕ) (data : Record) : Option (Node Record) :=
  if getNodeFreeSize t.nodeSize node < t.paddedKeySize keyLength + data.length + 2 then none
  else some { node with records := node.records.insertIdx index (t.keyRecord key keyLength data) }

/-- `RotateRecordLeft`: move the first record of the right node to the end of the left one. -/
def rotateRecordLeft (nodeSize : ℕ) (left right : Node Record) :
    Option (Node Record × Node Record) :=
  match insertRecord nodeSize left left.records.length (right.records.getD 0 []) with
  | none => none
  | some left => some (left, deleteRecord right 0)

end Records

/-! ## Rotating records -/

section Rotating

/-- The variables of the search for the balance point, which are signed. -/
structure Balance where
  leftSize : ℤ
  rightSize : ℤ
  moveSize : ℤ
  moveIndex : ℕ
  deriving DecidableEq

/-- The size of what the balance loop moves next: a record of the right node, or the new one at its
place among them. -/
def nextMoveSize (right : Node Record) (rightInsertIndex insertSize moveIndex : ℕ) : ℕ :=
  if moveIndex < rightInsertIndex then getRecordSize right moveIndex + 2
  else if moveIndex = rightInsertIndex then insertSize
  else getRecordSize right (moveIndex - 1) + 2

/-- The loop that moves records to the left while the left side is smaller.  The sizes are those of
`moves`; the bound is the number of records, all of which are then on the left side. -/
def balanceLoop (moves : ℕ → ℕ) : (count : ℕ) → Balance → Balance
  | 0, b => b
  | count + 1, b =>
    if b.leftSize < b.rightSize then
      balanceLoop moves count
        { leftSize := b.leftSize + moves b.moveIndex
          rightSize := b.rightSize - moves b.moveIndex
          moveSize := moves b.moveIndex
          moveIndex := b.moveIndex + 1 }
    else b

/-- Undo the last move if it has made the left side too large. -/
def Balance.undoLast (nodeSize : ℕ) (b : Balance) : Balance :=
  if b.leftSize > nodeSize then
    { b with
      leftSize := b.leftSize - b.moveSize
      rightSize := b.rightSize + b.moveSize
      moveIndex := b.moveIndex - 1 }
  else b

/-- What a rotation reports: where the new record is, whether it fits, and how many records moved. -/
structure Placement where
  insertIndex : ℕ
  insertNodeNum : ℕ
  recordFit : Bool
  recsRotated : ℕ
  deriving DecidableEq

/-- The loop that moves records, with the place of the new record once it is inserted. -/
def BTree.rotateRecords (t : BTree Record) (key : BTreeKey) (keyLength : ℕ) (data : Record)
    (rightInsertIndex : ℕ) : (count index : ℕ) → (left right : Node Record) → (place : ℕ × ℕ) →
    Except BTErr (ℕ × ℕ) × Node Record × Node Record
  | 0, _, left, right, place => (.ok place, left, right)
  | count + 1, index, left, right, place =>
    if index = rightInsertIndex then
      match t.insertKeyRecord left left.records.length key keyLength data with
      | none => (.error .fsBTBadRotateErr, left, right)
      | some left' =>
        t.rotateRecords key keyLength data rightInsertIndex count (index + 1) left' right
          (left.records.length, right.bLink)
    else
      match rotateRecordLeft t.nodeSize left right with
      | none => (.error .fsBTBadRotateErr, left, right)
      | some (left', right') =>
        t.rotateRecords key keyLength data rightInsertIndex count (index + 1) left' right' place

/-- The search for the balance point in `RotateLeft`. -/
def BTree.balancePoint (t : BTree Record) (left right : Node Record)
    (rightInsertIndex insertSize : ℕ) : Balance :=
  (balanceLoop (nextMoveSize right rightInsertIndex insertSize) (right.records.length + 1)
    { leftSize := (t.nodeSize : ℤ) - getNodeFreeSize t.nodeSize left
      rightSize := (t.nodeSize : ℤ) - getNodeFreeSize t.nodeSize right + insertSize
      moveSize := 0
      moveIndex := 0 }).undoLast t.nodeSize

/-- `RotateLeft`: balance two siblings and insert a record that belongs in the right one. -/
def BTree.rotateLeft (t : BTree Record) (left right : Node Record) (rightInsertIndex : ℕ)
    (key : BTreeKey) (data : Record) : Except BTErr Placement × Node Record × Node Record :=
  let keyLength := t.getKeyLength key (right.kind = .leaf)
  let insertSize := padOdd (keyLength + t.lengthFieldSize + data.length + 2)
  let b := t.balancePoint left right rightInsertIndex insertSize
  -- The record won't fit: failure, but not error.
  if b.rightSize > t.nodeSize then
    (.ok { insertIndex := 0, insertNodeNum := 0, recordFit := false, recsRotated := 0 }, left, right)
  else
    match t.rotateRecords key keyLength data rightInsertIndex b.moveIndex 0 left right (0, 0) with
    | (.error e, left, right) => (.error e, left, right)
    | (.ok place, left, right) =>
      if b.moveIndex ≤ rightInsertIndex then
        match t.insertKeyRecord right (rightInsertIndex - b.moveIndex) key keyLength data with
        | none => (.error .fsBTBadRotateErr, left, right)
        | some right =>
          (.ok { insertIndex := rightInsertIndex - b.moveIndex, insertNodeNum := left.fLink,
                 recordFit := true, recsRotated := b.moveIndex }, left, right)
      else
        (.ok { insertIndex := place.1, insertNodeNum := place.2, recordFit := true,
               recsRotated := b.moveIndex }, left, right)

end Rotating

/-! ## The split -/

section Split

/-- The checks of `SplitLeft` on the siblings. -/
def checkSiblings (left : Option (Node Record)) (right : Node Record) (rightNodeNum : ℕ) : Bool :=
  !(right.height = 1 && right.kind ≠ .leaf) &&
    match left with
    | none => true
    | some left =>
      left.fLink = rightNodeNum && left.height = right.height && left.kind = right.kind

/-- Update the forward link in the original left node. -/
def BTree.relinkLeft (t : BTree Record) (leftNodeNum : Option ℕ) (newNodeNum : ℕ) : BTree Record :=
  match leftNodeNum with
  | none => t
  | some n => t.setNode n { t.nodes n with fLink := newNodeNum }

/-- Initialize the new left node, which steals its info from the right one. -/
def BTree.initializeLeft (t : BTree Record) (newNodeNum rightNodeNum : ℕ) : BTree Record :=
  let right := t.nodes rightNodeNum
  let left : Node Record :=
    { Node.cleared with fLink := rightNodeNum, bLink := right.bLink, kind := right.kind,
                        height := right.height }
  { (t.setNode newNodeNum left).setNode rightNodeNum { right with bLink := newNodeNum } with
    firstLeafNode :=
      if left.kind = .leaf ∧ left.bLink = 0 then newNodeNum else t.firstLeafNode }

/-- `SplitLeft` before it rotates: allocate a node and link it in before the right one.  `flush` and
`getNew` are the errors of `UpdateNode` and `GetNewNode`. -/
def BTree.linkNewNode (t : BTree Record) (io flush getNew : FetchErrors Record)
    (leftNodeNum : Option ℕ) (rightNodeNum : ℕ) : Except BTErr ℕ × BTree Record :=
  if checkSiblings (leftNodeNum.map t.nodes) (t.nodes rightNodeNum) rightNodeNum then
    match t.allocateNode io with
    | (.error e, t) => (.error e, t)
    | (.ok newNodeNum, t) =>
      let t := t.relinkLeft leftNodeNum newNodeNum
      match leftNodeNum.bind (flush t), getNew t newNodeNum with
      | some e, _ => (.error e, t)
      | none, some e => (.error e, t)
      | none, none => (.ok newNodeNum, t.initializeLeft newNodeNum rightNodeNum)
  else (.error .fsBTInvalidNodeErr, t)

/-- `SplitLeft`.  It does not look at the `recordFit` of the rotation. -/
def BTree.splitLeft (t : BTree Record) (io flush getNew : FetchErrors Record)
    (leftNodeNum : Option ℕ) (rightNodeNum index : ℕ) (key : BTreeKey) (data : Record) :
    Except BTErr Placement × BTree Record :=
  match t.linkNewNode io flush getNew leftNodeNum rightNodeNum with
  | (.error e, t) => (.error e, t)
  | (.ok newNodeNum, t) =>
    let rotated := t.rotateLeft (t.nodes newNodeNum) (t.nodes rightNodeNum) index key data
    (rotated.1, (t.setNode newNodeNum rotated.2.1).setNode rightNodeNum rotated.2.2)

end Split

/-! ## Space in a node -/

section Space

/-- The space that a node with these records uses: its descriptor, the records with their offsets,
and the offset of the free space. -/
def usedSpace (records : List Record) : ℕ := 16 + (records.map (List.length · + 2)).sum

@[simp] theorem usedSpace_nil : usedSpace [] = 16 := rfl

@[simp] theorem usedSpace_append (l₁ l₂ : List Record) :
    usedSpace (l₁ ++ l₂) + 16 = usedSpace l₁ + usedSpace l₂ := by
  simp only [usedSpace, map_append, sum_append]
  omega

theorem usedSpace_concat (records : List Record) (record : Record) :
    usedSpace (records ++ [record]) = usedSpace records + (record.length + 2) := by
  simp [usedSpace, add_assoc]

theorem usedSpace_cons (record : Record) (records : List Record) :
    usedSpace (record :: records) = usedSpace records + (record.length + 2) := by
  simp only [usedSpace, map_cons, sum_cons]
  omega

theorem usedSpace_eq (records : List Record) :
    usedSpace records = freeOffset records + 2 * records.length + 2 := by
  induction records with
  | nil => rfl
  | cons record records ih =>
    rw [usedSpace_cons, ih]
    simp only [freeOffset, map_cons, sum_cons, length_cons]
    omega

variable {nodeSize : ℕ} {node : Node Record}

theorem getNodeFreeSize_eq (small : nodeSize < 2 ^ 16) (fits : usedSpace node.records ≤ nodeSize) :
    getNodeFreeSize nodeSize node = nodeSize - usedSpace node.records := by
  have used := usedSpace_eq node.records
  unfold getNodeFreeSize
  rw [Nat.shiftLeft_eq]
  omega

/-- A record fits at the end of a node exactly if the node holds the space that is then used. -/
theorem insertRecord_last {record : Record} (small : nodeSize < 2 ^ 16)
    (fits : usedSpace (node.records ++ [record]) ≤ nodeSize) :
    insertRecord nodeSize node node.records.length record =
      some { node with records := node.records ++ [record] } := by
  rw [usedSpace_concat] at fits
  have free : getNodeFreeSize nodeSize node = nodeSize - usedSpace node.records :=
    getNodeFreeSize_eq small (by omega)
  rw [insertRecord, if_neg (by omega)]
  simp

end Space

/-! ## The balance point -/

section BalancePoint

/-- What the first `j` moves move. -/
def movedSize (moves : ℕ → ℕ) : (j : ℕ) → ℕ
  | 0 => 0
  | j + 1 => movedSize moves j + moves j

variable {j total nodeSize : ℕ} {moves : ℕ → ℕ}

theorem movedSize_mono (moves : ℕ → ℕ) {i : ℕ} (le : i ≤ j) :
    movedSize moves i ≤ movedSize moves j := by
  induction le with
  | refl => exact le_rfl
  | step _ ih =>
    simp only [movedSize]
    omega

/-- The state of the balance loop after `j` moves. -/
structure Balanced (moves : ℕ → ℕ) (start b : Balance) : Prop where
  leftSize : b.leftSize = start.leftSize + movedSize moves b.moveIndex
  rightSize : b.rightSize = start.rightSize - movedSize moves b.moveIndex
  moveSize : ∀ j, b.moveIndex = j + 1 → b.moveSize = moves j
  /-- The left side was smaller before each move. -/
  smaller : ∀ j < b.moveIndex,
    start.leftSize + movedSize moves j < start.rightSize - movedSize moves j

theorem Balanced.start {start : Balance} (first : start.moveIndex = 0) :
    Balanced moves start start := by
  constructor
  case leftSize => simp [first, movedSize]
  case rightSize => simp [first, movedSize]
  case moveSize =>
    intro j index
    omega
  case smaller =>
    intro j before
    omega

/-- The balance loop stops at the first cut at which the left side is no smaller, unless it runs out
of records. -/
theorem balanceLoop_spec {start : Balance} (count : ℕ) {b : Balance}
    (balanced : Balanced moves start b) :
    Balanced moves start (balanceLoop moves count b) ∧
      (balanceLoop moves count b).moveIndex ≤ b.moveIndex + count ∧
      ((balanceLoop moves count b).rightSize ≤ (balanceLoop moves count b).leftSize ∨
        (balanceLoop moves count b).moveIndex = b.moveIndex + count) := by
  induction count generalizing b with
  | zero => exact ⟨balanced, le_rfl, .inr rfl⟩
  | succ count ih =>
    rw [balanceLoop]
    split_ifs with smaller
    · have next : Balanced moves start
          { leftSize := b.leftSize + moves b.moveIndex
            rightSize := b.rightSize - moves b.moveIndex
            moveSize := moves b.moveIndex
            moveIndex := b.moveIndex + 1 } := by
        constructor
        case leftSize =>
          simp only [movedSize, balanced.leftSize]
          omega
        case rightSize =>
          simp only [movedSize, balanced.rightSize]
          omega
        case moveSize =>
          intro j index
          obtain rfl : b.moveIndex = j := by simpa using index
          rfl
        case smaller =>
          intro j before
          rcases Nat.lt_succ_iff_lt_or_eq.mp before with earlier | rfl
          · exact balanced.smaller j earlier
          · rw [← balanced.leftSize, ← balanced.rightSize]
            exact smaller
      have ⟨keeps, bounded, stops⟩ := ih next
      simp only at bounded stops
      exact ⟨keeps, by omega, stops.imp_right fun index => by omega⟩
    · exact ⟨balanced, by omega, .inl (by omega)⟩

/-- After the last move is undone if need be, the sizes are those of the cut chosen, and if the right
side fits, so does the left one. -/
theorem undoLast_spec {start b : Balance}
    (balanced : Balanced moves start b) (leftStart : start.leftSize = 16)
    (rightStart : start.rightSize = 16 + total) (room : 16 ≤ nodeSize) :
    (b.undoLast nodeSize).moveIndex ≤ b.moveIndex ∧ (b.undoLast nodeSize).rightSize =
        16 + total - movedSize moves (b.undoLast nodeSize).moveIndex ∧
      ((b.undoLast nodeSize).rightSize ≤ nodeSize →
        16 + movedSize moves (b.undoLast nodeSize).moveIndex ≤ nodeSize) := by
  have left := balanced.leftSize
  have right := balanced.rightSize
  unfold Balance.undoLast
  split_ifs with large
  · cases index : b.moveIndex with
    | zero =>
      rw [leftStart, index] at left
      simp only [movedSize] at left
      omega
    | succ k =>
      have smaller := balanced.smaller k (by omega)
      have moved : b.moveSize = moves k := balanced.moveSize k index
      rw [index] at left right
      simp only [movedSize, Nat.add_sub_cancel] at left right ⊢
      omega
  · refine ⟨le_rfl, ?_, fun _ => ?_⟩
    · omega
    · omega

/-- If some cut leaves two sides that fit, the right side fits after the balance point is found. -/
theorem undoLast_fits {start b : Balance}
    (balanced : Balanced moves start b) (leftStart : start.leftSize = 16)
    (rightStart : start.rightSize = 16 + total) (stopped : b.rightSize ≤ b.leftSize)
    (room : 16 ≤ nodeSize) (leftFits : 16 + movedSize moves j ≤ nodeSize)
    (rightFits : 16 + total ≤ nodeSize + movedSize moves j) :
    (b.undoLast nodeSize).rightSize ≤ nodeSize := by
  have left := balanced.leftSize
  have right := balanced.rightSize
  unfold Balance.undoLast
  split_ifs with large
  · cases index : b.moveIndex with
    | zero =>
      rw [leftStart, index] at left
      simp only [movedSize] at left
      omega
    | succ k =>
      have moved : b.moveSize = moves k := balanced.moveSize k index
      rw [index] at left right
      -- The cut lies before the last move: after it the left side is too large.
      have before : j ≤ k := by
        by_contra after
        have more := movedSize_mono moves (show k + 1 ≤ j by omega)
        omega
      have fewer := movedSize_mono moves before
      simp only [movedSize] at left right ⊢
      omega
  · omega

end BalancePoint

/-! ## The rotation -/

section Rotation

variable {pre post : List Record} {new : Record}

/-- What is left in the right node after `i` moves: the new record is not in it. -/
def remaining (pre post : List Record) (i : ℕ) : List Record :=
  if i ≤ pre.length then pre.drop i ++ post else post.drop (i - pre.length - 1)

/-- The records and the new one in its place. -/
def withNew (pre post : List Record) (new : Record) : List Record := pre ++ new :: post

variable {i j keyLength c : ℕ} {l : List Record} {data : Record} {key : BTreeKey}

theorem withNew_getD_before (before : i < pre.length) :
    (withNew pre post new).getD i [] = (pre ++ post).getD i [] := by
  rw [withNew, getD_append _ _ _ _ before, getD_append _ _ _ _ before]

theorem withNew_getD_at : (withNew pre post new).getD pre.length [] = new := by
  simp [withNew]

theorem withNew_getD_after (after : pre.length < i) :
    (withNew pre post new).getD i [] = (pre ++ post).getD (i - 1) [] := by
  rw [withNew, getD_append_right _ _ _ _ (by omega), getD_append_right _ _ _ _ (by omega)]
  obtain ⟨d, rfl⟩ : ∃ d, i = pre.length + 1 + d := ⟨i - pre.length - 1, by omega⟩
  have left : pre.length + 1 + d - pre.length = d + 1 := by omega
  have right : pre.length + 1 + d - 1 - pre.length = d := by omega
  rw [left, right, getD_cons_succ]

theorem take_succ_getD (mem : i < l.length) :
    l.take (i + 1) = l.take i ++ [l.getD i []] := by
  rw [take_add_one, List.getElem?_eq_getElem mem, getD_eq_getElem _ _ mem]
  rfl

variable {right left : Node Record} {insertSize : ℕ} {t : BTree Record}

/-- The sizes that the balance loop moves are those of the records in their order. -/
theorem nextMoveSize_eq (records : right.records = pre ++ post) (size : insertSize = new.length + 2) (i : ℕ) :
    nextMoveSize right pre.length insertSize i = ((withNew pre post new).getD i []).length + 2 := by
  unfold nextMoveSize getRecordSize
  rw [records]
  split_ifs with before place
  · rw [withNew_getD_before before]
  · rw [place, withNew_getD_at, size]
  · rw [withNew_getD_after (by omega)]

theorem movedSize_eq {moves : ℕ → ℕ}
    (sizes : ∀ i, moves i = (l.getD i []).length + 2) (mem : j ≤ l.length) :
    16 + movedSize moves j = usedSpace (l.take j) := by
  induction j with
  | zero => rfl
  | succ j ih =>
    rw [take_succ_getD mem, usedSpace_concat, ← ih (Nat.le_of_succ_le mem), ← sizes j]
    simp only [movedSize]
    omega

/-- Before the place of the new record, the next record is the one moved. -/
theorem remaining_before (before : i < pre.length) :
    remaining pre post i = (withNew pre post new).getD i [] :: remaining pre post (i + 1) := by
  rw [withNew_getD_before before, getD_append _ _ _ _ before,
    getD_eq_getElem _ _ before, remaining, if_pos (by omega), remaining, if_pos (by omega),
    drop_eq_getElem_cons before]
  rfl

/-- The new record comes from outside the node. -/
theorem remaining_at : remaining pre post pre.length = remaining pre post (pre.length + 1) := by
  simp [remaining]

/-- After the place of the new record, the next record is the one moved. -/
theorem remaining_after (after : pre.length < i) (mem : i < (withNew pre post new).length) :
    remaining pre post i = (withNew pre post new).getD i [] :: remaining pre post (i + 1) := by
  obtain ⟨d, rfl⟩ : ∃ d, i = pre.length + 1 + d := ⟨i - pre.length - 1, by omega⟩
  have bound : d < post.length := by
    simp only [withNew, length_append, length_cons] at mem
    omega
  have index : pre.length + 1 + d - 1 = pre.length + d := by omega
  have here : pre.length + 1 + d - pre.length - 1 = d := by omega
  have next : pre.length + 1 + d + 1 - pre.length - 1 = d + 1 := by omega
  rw [withNew_getD_after after, index, getD_append_right _ _ _ _ (by omega),
    Nat.add_sub_cancel_left, getD_eq_getElem _ _ bound, remaining, if_neg (by omega),
    remaining, if_neg (by omega), here, next]
  exact drop_eq_getElem_cons bound

/-- The size of a record built from a key that is not longer than its length field says. -/
theorem keyRecord_length (t : BTree Record) (key : BTreeKey) (data : Record)
    (holds : key.content.length ≤ keyLength) (small : keyLength + 4 ≤ 2 ^ 16) :
    (t.keyRecord key keyLength data).length = t.paddedKeySize keyLength + data.length := by
  have field : ∀ b : Bool, (if b then [BitVec.ofNat 8 (keyLength / 256), BitVec.ofNat 8 keyLength]
      else [BitVec.ofNat 8 keyLength]).length = if b then 2 else 1 := by
    intro b
    cases b
    · rfl
    · rfl
  have padded : t.paddedKeySize keyLength = padOdd (keyLength + t.lengthFieldSize) := by
    unfold paddedKeySize padOdd lengthFieldSize
    split_ifs
    all_goals omega
  have enough : t.lengthFieldSize + keyLength ≤ t.paddedKeySize keyLength := by
    rw [padded, padOdd]
    split_ifs
    all_goals omega
  simp only [keyRecord, length_append, length_replicate, field]
  rw [← lengthFieldSize]
  omega

/-- With an even number of bytes of data, the size that the balance loop counts for the new record is
the space it takes. -/
theorem insertSize_eq (t : BTree Record) (key : BTreeKey)
    (holds : key.content.length ≤ keyLength) (small : keyLength + 4 ≤ 2 ^ 16)
    (even : data.length % 2 = 0) :
    padOdd (keyLength + t.lengthFieldSize + data.length + 2) =
      (t.keyRecord key keyLength data).length + 2 := by
  rw [keyRecord_length t key data holds small]
  unfold paddedKeySize padOdd lengthFieldSize
  split_ifs
  all_goals omega

theorem insertKeyRecord_fits {t : BTree Record} {node : Node Record} {key : BTreeKey}
    {keyLength index : ℕ} {data : Record} (holds : key.content.length ≤ keyLength)
    (small : keyLength + 4 ≤ 2 ^ 16) (smallNode : t.nodeSize < 2 ^ 16)
    (fits : usedSpace node.records + ((t.keyRecord key keyLength data).length + 2) ≤ t.nodeSize) :
    t.insertKeyRecord node index key keyLength data =
      some { node with
        records := node.records.insertIdx index (t.keyRecord key keyLength data) } := by
  have free : getNodeFreeSize t.nodeSize node = t.nodeSize - usedSpace node.records :=
    getNodeFreeSize_eq smallNode (by omega)
  have size := keyRecord_length t key data holds small
  rw [insertKeyRecord, if_neg (by omega)]

/-- One step of the rotation: the record that is moved, or the new one, goes to the end of the left
node. -/
theorem rotateRecords_step {count : ℕ} {place : ℕ × ℕ}
    (holds : key.content.length ≤ keyLength) (small : keyLength + 4 ≤ 2 ^ 16)
    (smallNode : t.nodeSize < 2 ^ 16) (built : new = t.keyRecord key keyLength data)
    (leftRecords : left.records = (withNew pre post new).take i)
    (rightRecords : right.records = remaining pre post i)
    (mem : i < (withNew pre post new).length)
    (fits : usedSpace ((withNew pre post new).take (i + 1)) ≤ t.nodeSize) :
    t.rotateRecords key keyLength data pre.length (count + 1) i left right place =
      t.rotateRecords key keyLength data pre.length count (i + 1)
        { left with records := (withNew pre post new).take (i + 1) }
        { right with records := remaining pre post (i + 1) }
        (if i = pre.length then (i, right.bLink) else place) := by
  have next := take_succ_getD mem
  have leftLength : left.records.length = i := by
    rw [leftRecords, length_take]
    omega
  rw [next] at fits
  rw [rotateRecords]
  by_cases here : i = pre.length
  · have space := usedSpace_concat ((withNew pre post new).take i) new
    have last : (withNew pre post new).getD i [] = new := by rw [here, withNew_getD_at]
    rw [last] at fits next
    have inserted : t.insertKeyRecord left left.records.length key keyLength data =
        some { left with
          records := left.records.insertIdx left.records.length
            (t.keyRecord key keyLength data) } :=
      insertKeyRecord_fits holds small smallNode (by rw [← built, leftRecords, ← space]; exact fits)
    rw [if_pos here, if_pos here, inserted, ← built, next, insertIdx_length_self, leftRecords]
    have same : right.records = remaining pre post (i + 1) := by
      rw [rightRecords, here, remaining_at]
    simp only [← same, ← leftRecords, leftLength]
  · have split : remaining pre post i =
        (withNew pre post new).getD i [] :: remaining pre post (i + 1) := by
      rcases lt_or_gt_of_ne here with before | after
      · exact remaining_before before
      · exact remaining_after after mem
    have first : right.records.getD 0 [] = (withNew pre post new).getD i [] := by
      rw [rightRecords, split]
      rfl
    have inserted : insertRecord t.nodeSize left left.records.length
        ((withNew pre post new).getD i []) =
        some { left with records := left.records ++ [(withNew pre post new).getD i []] } :=
      insertRecord_last smallNode (by rw [leftRecords]; exact fits)
    rw [if_neg here, if_neg here, rotateRecordLeft, first, inserted, next, leftRecords]
    simp only [deleteRecord, rightRecords, split, eraseIdx_zero, tail_cons]

/-- The rotation of `count` records. -/
theorem rotateRecords_spec {t : BTree Record} {key : BTreeKey} {keyLength : ℕ} {data : Record}
    (holds : key.content.length ≤ keyLength) (small : keyLength + 4 ≤ 2 ^ 16)
    (smallNode : t.nodeSize < 2 ^ 16) (built : new = t.keyRecord key keyLength data)
    (count : ℕ) {i : ℕ} {left right : Node Record} {place : ℕ × ℕ}
    (leftRecords : left.records = (withNew pre post new).take i)
    (rightRecords : right.records = remaining pre post i)
    (mem : i + count ≤ (withNew pre post new).length)
    (fits : usedSpace ((withNew pre post new).take (i + count)) ≤ t.nodeSize) :
    t.rotateRecords key keyLength data pre.length count i left right place =
      (.ok (if i ≤ pre.length ∧ pre.length < i + count then (pre.length, right.bLink) else place),
        { left with records := (withNew pre post new).take (i + count) },
        { right with records := remaining pre post (i + count) }) := by
  induction count generalizing i left right place with
  | zero =>
    rw [rotateRecords, if_neg (by omega), add_zero, ← leftRecords, ← rightRecords]
  | succ count ih =>
    have shorter : usedSpace ((withNew pre post new).take (i + 1)) ≤ t.nodeSize := by
      have more := usedSpace_append ((withNew pre post new).take (i + 1))
        (((withNew pre post new).take (i + (count + 1))).drop (i + 1))
      have whole : (withNew pre post new).take (i + 1) ++
          ((withNew pre post new).take (i + (count + 1))).drop (i + 1) =
          (withNew pre post new).take (i + (count + 1)) := by
        have cut : (withNew pre post new).take (i + 1) =
            ((withNew pre post new).take (i + (count + 1))).take (i + 1) := by
          rw [take_take, Nat.min_eq_left (by omega)]
        rw [cut, take_append_drop]
      have least : 16 ≤ usedSpace
          (((withNew pre post new).take (i + (count + 1))).drop (i + 1)) := by
        unfold usedSpace
        omega
      rw [whole] at more
      omega
    have sum : i + 1 + count = i + (count + 1) := by omega
    rw [rotateRecords_step holds small smallNode built leftRecords rightRecords (by omega) shorter,
      ih rfl rfl (by omega) (by rw [sum]; exact fits), sum]
    congr 2
    split_ifs
    all_goals first | rfl | omega | simp_all

theorem usedSpace_take_add_drop (l : List Record) (j : ℕ) :
    usedSpace (l.take j) + usedSpace (l.drop j) = usedSpace l + 16 := by
  rw [← usedSpace_append, take_append_drop]

theorem withNew_length : (withNew pre post new).length = (pre ++ post).length + 1 := by
  simp only [withNew, length_append, length_cons]
  omega

theorem usedSpace_withNew :
    usedSpace (withNew pre post new) = usedSpace (pre ++ post) + (new.length + 2) := by
  have whole := usedSpace_append pre (new :: post)
  have parts := usedSpace_append pre post
  have cons := usedSpace_cons new post
  unfold withNew
  omega

/-- The balance point of a fresh left node: a cut of the records with the new one, of which the right
side fits if there is any cut that fits, and then the left side fits too. -/
theorem balancePoint_spec (smallNode : t.nodeSize < 2 ^ 16) (empty : left.records = [])
    (records : right.records = pre ++ post) (size : insertSize = new.length + 2)
    (fits : usedSpace (pre ++ post) ≤ t.nodeSize) :
    ∃ c ≤ (withNew pre post new).length,
      (t.balancePoint left right pre.length insertSize).moveIndex = c ∧
      (t.balancePoint left right pre.length insertSize).rightSize =
        usedSpace ((withNew pre post new).drop c) ∧
      (usedSpace ((withNew pre post new).drop c) ≤ t.nodeSize →
        usedSpace ((withNew pre post new).take c) ≤ t.nodeSize) ∧
      ∀ j ≤ (withNew pre post new).length, usedSpace ((withNew pre post new).take j) ≤ t.nodeSize →
        usedSpace ((withNew pre post new).drop j) ≤ t.nodeSize →
        usedSpace ((withNew pre post new).drop c) ≤ t.nodeSize := by
  have room : 16 ≤ t.nodeSize := by
    unfold usedSpace at fits
    omega
  have sizes := nextMoveSize_eq records size
  have taken := fun {j : ℕ} => movedSize_eq (j := j) sizes
  have parts := usedSpace_take_add_drop (withNew pre post new)
  have whole : usedSpace (withNew pre post new) = usedSpace (pre ++ post) + insertSize := by
    rw [usedSpace_withNew, size]
  have length : (withNew pre post new).length = (pre ++ post).length + 1 := withNew_length
  have leftFree : getNodeFreeSize t.nodeSize left = t.nodeSize - 16 := by
    rw [getNodeFreeSize_eq smallNode (by rw [empty]; exact room), empty, usedSpace_nil]
  have rightFree : getNodeFreeSize t.nodeSize right = t.nodeSize - usedSpace (pre ++ post) := by
    rw [getNodeFreeSize_eq smallNode (by rw [records]; exact fits), records]
  unfold balancePoint
  rw [leftFree, rightFree, records]
  generalize starts : ({ leftSize := (t.nodeSize : ℤ) - ((t.nodeSize - 16 : ℕ) : ℤ)
                         rightSize := (t.nodeSize : ℤ)
                           - ((t.nodeSize - usedSpace (pre ++ post) : ℕ) : ℤ) + insertSize
                         moveSize := 0
                         moveIndex := 0 } : Balance) = start
  have leftStart : start.leftSize = 16 := by
    rw [← starts]
    simp only
    omega
  have rightStart : start.rightSize = 16 + ((usedSpace (withNew pre post new) - 16 : ℕ) : ℤ) := by
    rw [← starts, whole]
    simp only
    have least : 16 ≤ usedSpace (pre ++ post) := by
      unfold usedSpace
      omega
    omega
  have first : start.moveIndex = 0 := by rw [← starts]
  have initial : Balanced (nextMoveSize right pre.length insertSize) start start :=
    Balanced.start first
  have ⟨balanced, bounded, stops⟩ := balanceLoop_spec ((pre ++ post).length + 1) initial
  generalize balanceLoop (nextMoveSize right pre.length insertSize) ((pre ++ post).length + 1)
    start = b at balanced bounded stops ⊢
  have stopped : b.rightSize ≤ b.leftSize := by
    rcases stops with stopped | all
    · exact stopped
    -- All records are on the left side.
    have everything := taken (j := b.moveIndex) (by omega)
    rw [all, first, zero_add, ← length, take_length] at everything
    rw [balanced.leftSize, balanced.rightSize, leftStart, rightStart, all, first, zero_add,
      ← length]
    omega
  have ⟨earlier, rightSize, leftFits⟩ := undoLast_spec balanced leftStart rightStart room
  have mem : (b.undoLast t.nodeSize).moveIndex ≤ (withNew pre post new).length := by omega
  have atCut := taken mem
  have least : 16 ≤ usedSpace (withNew pre post new) := by
    unfold usedSpace
    omega
  have partsAtCut := parts (b.undoLast t.nodeSize).moveIndex
  have rightSize' : (b.undoLast t.nodeSize).rightSize =
      usedSpace ((withNew pre post new).drop (b.undoLast t.nodeSize).moveIndex) := by
    rw [rightSize]
    omega
  refine ⟨(b.undoLast t.nodeSize).moveIndex, mem, rfl, rightSize', fun right => ?_,
    fun j within left right => ?_⟩
  · have left := leftFits (by rw [rightSize']; exact_mod_cast right)
    omega
  have atJ := taken within
  have partsAtJ := parts j
  have found := undoLast_fits balanced leftStart rightStart stopped room (j := j) (by omega)
    (by omega)
  rw [rightSize'] at found
  exact_mod_cast found

theorem insertIdx_append_length (l₁ l₂ : List Record) (record : Record) :
    (l₁ ++ l₂).insertIdx l₁.length record = l₁ ++ record :: l₂ := by
  induction l₁ with
  | nil => rfl
  | cons first l₁ ih =>
    simp only [cons_append, length_cons, insertIdx_succ_cons, ih]

theorem withNew_drop (within : c ≤ pre.length) :
    (withNew pre post new).drop c = (remaining pre post c).insertIdx (pre.length - c) new := by
  have length : (pre.drop c).length = pre.length - c := length_drop
  rw [withNew, drop_append_of_le_length within, remaining, if_pos within, ← length,
    insertIdx_append_length]

theorem withNew_drop_after (after : pre.length < c) :
    (withNew pre post new).drop c = remaining pre post c := by
  obtain ⟨d, rfl⟩ : ∃ d, c = pre.length + 1 + d := ⟨c - pre.length - 1, by omega⟩
  have index : pre.length + 1 + d - pre.length - 1 = d := by omega
  have shift : pre.length + 1 + d = pre.length + (d + 1) := by omega
  rw [remaining, if_neg (by omega), index, withNew, shift, drop_length_add_append, drop_succ_cons]

/-- What a rotation to a fresh node does when it places the new record: the records are cut in two,
and the report names the node and the index of the new one. -/
structure Cut (left right : Node Record) (all : List Record) (new : Record) (place : Placement)
    (left' right' : Node Record) : Prop where
  recordFit : place.recordFit = true
  lossless : left'.records ++ right'.records = all
  leftNonempty : left'.records ≠ []
  rightNonempty : right'.records ≠ []
  links : left'.fLink = left.fLink ∧ right'.bLink = right.bLink
  placed : place.insertNodeNum = left.fLink ∧ right'.records[place.insertIndex]? = some new ∨
    place.insertNodeNum = right.bLink ∧ left'.records[place.insertIndex]? = some new

variable (smallNode : t.nodeSize < 2 ^ 16)
  (holds : key.content.length ≤ t.getKeyLength key (right.kind = .leaf))
  (small : t.getKeyLength key (right.kind = .leaf) + 4 ≤ 2 ^ 16) (even : data.length % 2 = 0)
  (built : new = t.keyRecord key (t.getKeyLength key (right.kind = .leaf)) data)
  (empty : left.records = []) (records : right.records = pre ++ post)
  (fits : usedSpace (pre ++ post) ≤ t.nodeSize)

include smallNode holds small even built empty records fits

/-- `RotateLeft` to a fresh node if some cut of the records fits: the records are cut in two. -/
theorem rotateLeft_cut (full : t.nodeSize < usedSpace (withNew pre post new))
    (leftFits : usedSpace ((withNew pre post new).take j) ≤ t.nodeSize)
    (rightFits : usedSpace ((withNew pre post new).drop j) ≤ t.nodeSize) :
    ∃ place left' right', t.rotateLeft left right pre.length key data = (.ok place, left', right') ∧
      Cut left right (withNew pre post new) new place left' right' := by
  have size := insertSize_eq t key holds small even
  rw [← built] at size
  have ⟨c, within, moved, rightSize, leftOfRight, anyCut⟩ :=
    balancePoint_spec smallNode empty records size fits
  have mem : j ≤ (withNew pre post new).length := by
    by_contra beyond
    rw [take_of_length_le (by omega)] at leftFits
    omega
  have rightFits' := anyCut j mem leftFits rightFits
  have leftFits' := leftOfRight rightFits'
  -- The records do not fit in one node, so that the cut is a proper one.
  have leftSome : (withNew pre post new).take c ≠ [] := by
    intro none
    have same := take_append_drop c (withNew pre post new)
    rw [none, nil_append] at same
    rw [same] at rightFits'
    omega
  have rightSome : (withNew pre post new).drop c ≠ [] := by
    intro none
    have same := take_append_drop c (withNew pre post new)
    rw [none, append_nil] at same
    rw [same] at leftFits'
    omega
  have start : right.records = remaining pre post 0 := by simp [remaining, records]
  have rotated := @rotateRecords_spec _ _ _ _ _ _ _ holds small smallNode built c _ _ _ (0, 0)
    (empty.trans take_zero.symm) start (by omega) (by rw [zero_add]; exact leftFits')
  rw [zero_add] at rotated
  have fitsInt : ¬ ((usedSpace ((withNew pre post new).drop c) : ℤ) > t.nodeSize) := by
    exact_mod_cast not_lt.mpr rightFits'
  rw [BTree.rotateLeft]
  simp only [moved, rightSize, rotated]
  rw [if_neg fitsInt]
  by_cases early : c ≤ pre.length
  · have spare : usedSpace (remaining pre post c) + (new.length + 2) ≤ t.nodeSize := by
      have cut : (withNew pre post new).drop c = pre.drop c ++ new :: post := by
        rw [withNew, drop_append_of_le_length early]
      have whole := usedSpace_append (pre.drop c) (new :: post)
      have others := usedSpace_append (pre.drop c) post
      have cons := usedSpace_cons new post
      rw [cut] at rightFits'
      simp only [remaining, if_pos early]
      omega
    rw [built] at spare
    have inserted := @insertKeyRecord_fits t { right with records := remaining pre post c } key _
      (pre.length - c) data holds small smallNode spare
    rw [← built] at inserted
    rw [if_pos early, inserted]
    refine ⟨_, _, _, rfl, ?_⟩
    constructor
    case recordFit => rfl
    case lossless =>
      rw [← withNew_drop early, take_append_drop]
    case leftNonempty => exact leftSome
    case rightNonempty =>
      rw [← withNew_drop early]
      exact rightSome
    case links => exact ⟨rfl, rfl⟩
    case placed =>
      refine .inl ⟨rfl, ?_⟩
      rw [← withNew_drop early, withNew, drop_append_of_le_length early,
        List.getElem?_append_right (by rw [length_drop]), length_drop]
      simp
  · rw [if_neg early, if_pos ⟨Nat.zero_le _, by omega⟩]
    refine ⟨_, _, _, rfl, ?_⟩
    constructor
    case recordFit => rfl
    case lossless =>
      rw [← withNew_drop_after (by omega), take_append_drop]
    case leftNonempty => exact leftSome
    case rightNonempty =>
      rw [← withNew_drop_after (by omega)]
      exact rightSome
    case links => exact ⟨rfl, rfl⟩
    case placed =>
      refine .inr ⟨rfl, ?_⟩
      simp only
      rw [List.getElem?_take_of_lt (by omega), withNew, List.getElem?_append_right le_rfl]
      simp

/-- `RotateLeft` to a fresh node if no cut of the records fits: nothing happens. -/
theorem rotateLeft_refuses
    (uncuttable : ∀ j, usedSpace ((withNew pre post new).take j) ≤ t.nodeSize → ¬ usedSpace ((withNew pre post new).drop j) ≤ t.nodeSize) :
    ∃ place, t.rotateLeft left right pre.length key data = (.ok place, left, right) ∧
      place.recordFit = false := by
  have size := insertSize_eq t key holds small even
  rw [← built] at size
  have ⟨c, _, _, rightSize, leftFits, _⟩ :=
    balancePoint_spec smallNode empty records size fits
  refine ⟨{ insertIndex := 0, insertNodeNum := 0, recordFit := false, recsRotated := 0 }, ?_, rfl⟩
  rw [BTree.rotateLeft]
  simp only [rightSize]
  rw [if_pos]
  by_contra mem
  have rightFits : usedSpace ((withNew pre post new).drop c) ≤ t.nodeSize := by
    exact_mod_cast Int.not_lt.mp mem
  exact uncuttable c (leftFits rightFits) rightFits

end Rotation

/-! ## What the split does -/

section SplitOutcome

/-- What a step of the split before the rotation leaves alone: the shape of the tree, and the kind
and records of its nodes. -/
structure SameRecords (t t' : BTree Record) : Prop where
  nodeSize : t'.nodeSize = t.nodeSize
  bigKeys : t'.bigKeys = t.bigKeys
  variableIndexKeys : t'.variableIndexKeys = t.variableIndexKeys
  maxKeyLength : t'.maxKeyLength = t.maxKeyLength
  kind : ∀ n, (t'.nodes n).kind = (t.nodes n).kind
  records : ∀ n, (t'.nodes n).records = (t.nodes n).records

variable {t t' : BTree Record} {node : Node Record} {newNodeNum rightNodeNum : ℕ}

theorem SameRecords.trans {t'' : BTree Record} (first : SameRecords t t')
    (second : SameRecords t' t'') : SameRecords t t'' := by
  constructor
  case nodeSize => exact second.nodeSize.trans first.nodeSize
  case bigKeys => exact second.bigKeys.trans first.bigKeys
  case variableIndexKeys => exact second.variableIndexKeys.trans first.variableIndexKeys
  case maxKeyLength => exact second.maxKeyLength.trans first.maxKeyLength
  case kind => exact fun n => (second.kind n).trans (first.kind n)
  case records => exact fun n => (second.records n).trans (first.records n)

theorem sameRecords_setNode {n : ℕ}
    (kind : node.kind = (t.nodes n).kind) (records : node.records = (t.nodes n).records) :
    SameRecords t (t.setNode n node) := by
  constructor
  case kind =>
    intro m
    by_cases here : m = n
    · rw [here, setNode_nodes_self, kind]
    · rw [setNode_nodes_of_ne here]
  case records =>
    intro m
    by_cases here : m = n
    · rw [here, setNode_nodes_self, records]
    · rw [setNode_nodes_of_ne here]
  all_goals rfl

theorem SameRecords.refl (t : BTree Record) : SameRecords t t :=
  ⟨rfl, rfl, rfl, rfl, fun _ => rfl, fun _ => rfl⟩

theorem sameRecords_freeNodes (t : BTree Record) (freeNodes : ℕ) :
    SameRecords t { t with freeNodes := freeNodes } :=
  ⟨rfl, rfl, rfl, rfl, fun _ => rfl, fun _ => rfl⟩

/-- Allocating a node changes the node map only. -/
theorem sameRecords_allocateNode (t : BTree Record) (io : FetchErrors Record) :
    SameRecords t (t.allocateNode io).2 := by
  have marked : ∀ n pos word, SameRecords t (t.setMapWord n pos word) :=
    fun n pos word => sameRecords_setNode rfl rfl
  unfold allocateNode
  split
  · exact SameRecords.refl t
  rename_i n pos firstNode found
  generalize findFreeBit ((t.nodes n).mapWords pos) 15 0x8000#16 = free
  dsimp only
  split_ifs
  · exact SameRecords.refl t
  · exact (marked n pos _).trans (sameRecords_freeNodes _ _)

theorem sameRecords_relinkLeft (t : BTree Record) (leftNodeNum : Option ℕ) (newNodeNum : ℕ) :
    SameRecords t (t.relinkLeft leftNodeNum newNodeNum) := by
  cases leftNodeNum with
  | none => exact SameRecords.refl t
  | some n => exact sameRecords_setNode rfl rfl

/-- The two nodes after the new one is linked in. -/
structure LinkedNew (t t' : BTree Record) (newNodeNum rightNodeNum : ℕ) : Prop where
  nodeSize : t'.nodeSize = t.nodeSize
  bigKeys : t'.bigKeys = t.bigKeys
  variableIndexKeys : t'.variableIndexKeys = t.variableIndexKeys
  maxKeyLength : t'.maxKeyLength = t.maxKeyLength
  newRecords : (t'.nodes newNodeNum).records = []
  newLink : (t'.nodes newNodeNum).fLink = rightNodeNum
  rightRecords : (t'.nodes rightNodeNum).records = (t.nodes rightNodeNum).records
  rightKind : (t'.nodes rightNodeNum).kind = (t.nodes rightNodeNum).kind
  rightLink : (t'.nodes rightNodeNum).bLink = newNodeNum

theorem initializeLeft_spec (same : SameRecords t t') (distinct : newNodeNum ≠ rightNodeNum) :
    LinkedNew t (t'.initializeLeft newNodeNum rightNodeNum) newNodeNum rightNodeNum := by
  constructor
  case nodeSize => exact same.nodeSize
  case bigKeys => exact same.bigKeys
  case variableIndexKeys => exact same.variableIndexKeys
  case maxKeyLength => exact same.maxKeyLength
  case newRecords =>
    simp only [initializeLeft]
    rw [setNode_nodes_of_ne distinct, setNode_nodes_self]
    rfl
  case newLink =>
    simp only [initializeLeft]
    rw [setNode_nodes_of_ne distinct, setNode_nodes_self]
  case rightRecords =>
    simp only [initializeLeft, setNode_nodes_self]
    exact same.records rightNodeNum
  case rightKind =>
    simp only [initializeLeft, setNode_nodes_self]
    exact same.kind rightNodeNum
  case rightLink => simp only [initializeLeft, setNode_nodes_self]

theorem linkNewNode_spec {io flush getNew : FetchErrors Record} {leftNodeNum : Option ℕ}
    (linked : t.linkNewNode io flush getNew leftNodeNum rightNodeNum = (.ok newNodeNum, t'))
    (distinct : newNodeNum ≠ rightNodeNum) : LinkedNew t t' newNodeNum rightNodeNum := by
  have allocated := sameRecords_allocateNode t io
  unfold linkNewNode at linked
  by_cases siblings : checkSiblings (leftNodeNum.map t.nodes) (t.nodes rightNodeNum) rightNodeNum
  · rw [if_pos siblings] at linked
    split at linked
    · cases linked
    rename_i n t₁ allocation
    rw [allocation] at allocated
    dsimp only at linked
    split at linked
    · cases linked
    · cases linked
    · obtain ⟨number, rfl⟩ := Prod.mk.inj linked
      obtain rfl : n = newNodeNum := Except.ok.inj number
      exact initializeLeft_spec (allocated.trans (sameRecords_relinkLeft t₁ leftNodeNum n)) distinct
  · rw [if_neg siblings] at linked
    cases linked

/-- The outcome of a split in which the record is placed: the two nodes hold the records `all`, both
hold some, and the new record is where the outcome says. -/
def PlacesRecord (outcome : Except BTErr Placement × BTree Record) (newNodeNum rightNodeNum : ℕ)
    (all : List Record) (new : Record) : Prop :=
  ∃ place, outcome.1 = .ok place ∧ place.recordFit = true ∧
    (outcome.2.nodes newNodeNum).records ++ (outcome.2.nodes rightNodeNum).records = all ∧
    (outcome.2.nodes newNodeNum).records ≠ [] ∧ (outcome.2.nodes rightNodeNum).records ≠ [] ∧
    (outcome.2.nodes place.insertNodeNum).records[place.insertIndex]? = some new

/-- Records can be cut into two runs that fit in a node each. -/
def FitsTwoNodes (nodeSize : ℕ) (all : List Record) : Prop :=
  ∃ j, usedSpace (all.take j) ≤ nodeSize ∧ usedSpace (all.drop j) ≤ nodeSize

/-- A record that does not fit in its node is larger than the free space. -/
theorem full_of_insertKeyRecord {index keyLength : ℕ}
    {key : BTreeKey} {data : Record} (holds : key.content.length ≤ keyLength)
    (small : keyLength + 4 ≤ 2 ^ 16) (smallNode : t.nodeSize < 2 ^ 16)
    (fits : usedSpace node.records ≤ t.nodeSize)
    (refused : t.insertKeyRecord node index key keyLength data = none) :
    t.nodeSize < usedSpace node.records + ((t.keyRecord key keyLength data).length + 2) := by
  have free := getNodeFreeSize_eq smallNode fits
  have size := keyRecord_length t key data holds small
  unfold insertKeyRecord at refused
  split_ifs at refused with tooLarge
  omega

/-- A record of a key of six bytes with `size` bytes of data. -/
def sampleRecord (size : ℕ) : Record :=
  [0#8, 6#8] ++ List.replicate 6 0#8 ++ List.replicate size 0#8

/-- A tree of nodes of 512 bytes, whose only leaf holds records of the given numbers of bytes of
data. -/
def sampleTree (sizes : List ℕ) : BTree Record where
  nodeSize := 512
  maxKeyLength := 6
  bigKeys := true
  variableIndexKeys := true
  treeDepth := 1
  rootNode := 1
  leafRecords := sizes.length
  firstLeafNode := 1
  lastLeafNode := 1
  totalNodes := 16
  freeNodes := 14
  fcbEOF := 8192
  nodes := fun n =>
    if n = 0 then
      { (Node.cleared : Node Record) with
        kind := .header
        mapSize := 256
        mapWords := fun k => if k = 0 then 0xC000#16 else 0#16 }
    else
      { (Node.cleared : Node Record) with
        kind := .leaf
        height := 1
        records := sizes.map sampleRecord }

/-- A key of six bytes. -/
def sampleKey : BTreeKey := ⟨List.replicate 6 1#8⟩

/-- No errors of the file system. -/
def noErrors : FetchErrors Record := fun _ _ => none

end SplitOutcome

end Darwin.Hfs
