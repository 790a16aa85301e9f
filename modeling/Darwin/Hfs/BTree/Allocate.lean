import Darwin.Hfs.BTree.Basic
import Darwin.Lib.WordBitmap

/-!
# The node map

A model of `BTreeAllocate.c`.  The nodes of a tree file are allocated in a map that starts in the
third record of the header node and continues in a chain of map nodes.  `AllocateNode` scans it word
by word, `FreeNode` seeks the record of a node, and `ExtendBTree` grows the file and appends the map
nodes that the new nodes need.
-/

namespace Darwin.Hfs

variable {R : Type*}

/-- `GetMapNode`: the map node after `node`, or the header node. -/
def BTree.getMapNode (t : BTree R) (io : FetchErrors R) : (node : Option ℕ) → Except BTErr ℕ
  | none =>
    match t.getNode io 0 with
    | .error e => .error e
    | .ok header => if header.kind = .header then .ok 0 else .error .fsBTInvalidHeaderErr
  | some n =>
    let nextNodeNum := (t.nodes n).fLink
    if nextNodeNum = 0 then .error .fsBTNoMoreMapNodesErr
    else
      match t.getNode io nextNodeNum with
      | .error e => .error e
      | .ok next => if next.kind = .map then .ok nextNodeNum else .error .fsBTBadNodeType

/-- Write a word of the map record of a node. -/
def BTree.setMapWord (t : BTree R) (n pos : ℕ) (word : BitVec 16) : BTree R :=
  t.setNode n { t.nodes n with mapWords := Function.update (t.nodes n).mapWords pos word }

/-! ## Allocating a node -/

/-- The scan of a map record for a word with a clear bit.  The position is incremented past the word
found. -/
def scanMapRecord (words : ℕ → BitVec 16) : (size pos : ℕ) → ℕ
  | 0, pos => pos
  | size + 1, pos => if words pos ≠ 0xFFFF#16 then pos + 1 else scanMapRecord words size (pos + 1)

/-- The loop of `AllocateNode` over the map records: the map node and the position of a word with a
clear bit, and the number of the first node of that record. -/
def BTree.findFreeWord (t : BTree R) (io : FetchErrors R) :
    (fuel : ℕ) → (node : Option ℕ) → (nodeNumber : ℕ) → Except BTErr (ℕ × ℕ × ℕ)
  | 0, _, _ => .error .unfinished
  | fuel + 1, node, nodeNumber =>
    match t.getMapNode io node with
    | .error e => .error e
    | .ok n =>
      let words := (t.nodes n).mapWords
      let mapSize := (t.nodes n).mapSize
      -- The scan leaves `pos` past the last word it looked at.
      let pos := scanMapRecord words (mapSize >>> 1) 0 - 1
      if words pos ≠ 0xFFFF#16 then .ok (n, pos, nodeNumber)
      else t.findFreeWord io fuel (some n) ((nodeNumber + mapSize <<< 3) % 2 ^ 32)

/-- The search for the first clear bit of a word. -/
def findFreeBit (freeWord : BitVec 16) : (bitOffset : ℕ) → (mask : BitVec 16) → ℕ × BitVec 16
  | 0, mask => (0, mask)
  | bitOffset + 1, mask =>
    if freeWord &&& mask = 0#16 then (bitOffset + 1, mask)
    else findFreeBit freeWord bitOffset (mask >>> 1)

/-- `AllocateNode`: find the first free node, mark it used and return its number. -/
def BTree.allocateNode (t : BTree R) (io : FetchErrors R) : Except BTErr ℕ × BTree R :=
  match t.findFreeWord io (t.totalNodes + 1) none 0 with
  | .error e => (.error e, t)
  | .ok (n, pos, firstNode) =>
    let freeWord := (t.nodes n).mapWords pos
    let free := findFreeBit freeWord 15 0x8000#16
    let nodeNumber := (firstNode + pos <<< 4 + (15 - free.1)) % 2 ^ 32
    if nodeNumber ≥ t.totalNodes then (.error .fsBTFullErr, t)
    else (.ok nodeNumber, { t.setMapWord n pos (freeWord ||| free.2) with
      freeNodes := (t.freeNodes + 2 ^ 32 - 1) % 2 ^ 32 })

/-! ## Freeing a node -/

/-- The loop of `FreeNode`: the map node that holds the bit of `nodeNum`, and the number of the node
after those of its record. -/
def BTree.findMapRecord (t : BTree R) (io : FetchErrors R) (nodeNum : ℕ) :
    (fuel : ℕ) → (node : Option ℕ) → (nodeIndex : ℕ) → Except BTErr (ℕ × ℕ)
  | 0, _, _ => .error .unfinished
  | fuel + 1, node, nodeIndex =>
    match t.getMapNode io node with
    | .error e => .error e
    | .ok n =>
      let nodeIndex := (nodeIndex + (t.nodes n).mapSize <<< 3) % 2 ^ 32
      if nodeNum ≥ nodeIndex then t.findMapRecord io nodeNum fuel (some n) nodeIndex
      else .ok (n, nodeIndex)

/-- `FreeNode`: clear the map bit of a node. -/
def BTree.freeNode (t : BTree R) (io : FetchErrors R) (nodeNum : ℕ) : Except BTErr Unit × BTree R :=
  match t.findMapRecord io nodeNum (t.totalNodes + 1) none 0 with
  | .error e => (.error e, t)
  | .ok (n, nodeIndex) =>
    let recordStart := (nodeIndex + 2 ^ 32 - (t.nodes n).mapSize <<< 3) % 2 ^ 32
    let bitInRecord := (nodeNum + 2 ^ 32 - recordStart) % 2 ^ 32
    let word := (t.nodes n).mapWords (bitInRecord >>> 4)
    (.ok (), { t.setMapWord n (bitInRecord >>> 4)
          (word &&& ~~~(1#16 <<< (15 - bitInRecord % 16))) with
        freeNodes := (t.freeNodes + 1) % 2 ^ 32 })

/-! ## Extending the tree -/

/-- A map node, and where the bits of its record stand in the whole map. -/
structure MapCursor where
  mapNode : ℕ
  recStartBit : ℕ
  mapBits : ℕ
  totalMapBits : ℕ

/-- The loop of `ExtendBTree` that counts the bits of the map, up to the last map node. -/
def BTree.countMapBits (t : BTree R) (io : FetchErrors R) :
    (fuel : ℕ) → (node : Option ℕ) → (totalMapBits : ℕ) → Except BTErr MapCursor
  | 0, _, _ => .error .unfinished
  | fuel + 1, node, totalMapBits =>
    match t.getMapNode io node with
    | .error e => .error e
    | .ok n =>
      let mapBits := (t.nodes n).mapSize <<< 3
      let total := (totalMapBits + mapBits) % 2 ^ 32
      if (t.nodes n).fLink ≠ 0 then t.countMapBits io fuel (some n) total
      else .ok ⟨n, totalMapBits, mapBits, total⟩

/-- A new map node.  Its free space offset leaves out the last two bytes. -/
def Node.newMap (nodeSize fLink : ℕ) : Node R :=
  { Node.cleared with fLink := fLink, kind := .map, mapSize := nodeSize - 6 - 14 }

/-- Initialize `count + 1` new map nodes from `nodeNum` on, each linked to the next. -/
def BTree.initMapNodes : (count nodeNum : ℕ) → BTree R → BTree R
  | 0, nodeNum, t => t.setNode nodeNum (.newMap t.nodeSize 0)
  | count + 1, nodeNum, t =>
    BTree.initMapNodes count (nodeNum + 1) (t.setNode nodeNum (.newMap t.nodeSize (nodeNum + 1)))

/-- Move to the map record that holds the bit of `nodeNum`. -/
def MapCursor.seek (t : BTree R) (io : FetchErrors R) (nodeNum : ℕ) :
    (fuel : ℕ) → MapCursor → Except BTErr MapCursor
  | 0, _ => .error .unfinished
  | fuel + 1, c =>
    if (nodeNum + 2 ^ 32 - c.recStartBit) % 2 ^ 32 ≥ c.mapBits then
      let nextNodeNum := (t.nodes c.mapNode).fLink
      if nextNodeNum = 0 then .error .fsBTNoMoreMapNodesErr
      else
        match t.getNode io nextNodeNum with
        | .error e => .error e
        | .ok next =>
          MapCursor.seek t io nodeNum fuel ⟨nextNodeNum, c.totalMapBits, next.mapSize <<< 3,
            (c.totalMapBits + next.mapSize <<< 3) % 2 ^ 32⟩
    else .ok c

/-- Mark `count` new map nodes from `nodeNum` on as allocated. -/
def BTree.markMapNodes (io : FetchErrors R) :
    (count nodeNum : ℕ) → MapCursor → BTree R → Except BTErr Unit × BTree R
  | 0, _, _, t => (.ok (), t)
  | count + 1, nodeNum, c, t =>
    match c.seek t io nodeNum (t.totalNodes + 1) with
    | .error e => (.error e, t)
    | .ok c =>
      let bitInRecord := (nodeNum + 2 ^ 32 - c.recStartBit) % 2 ^ 32
      let word := (t.nodes c.mapNode).mapWords (bitInRecord >>> 4)
      BTree.markMapNodes io count (nodeNum + 1) c (t.setMapWord c.mapNode (bitInRecord >>> 4)
          (word ||| 1#16 <<< (15 - bitInRecord % 16)))

/-- The part of `ExtendBTree` after the file was extended to `fcbEOF` bytes: append the map nodes
that the nodes of the file need. -/
def BTree.addMapNodes (t : BTree R) (io : FetchErrors R) (c : MapCursor) (fcbEOF : ℕ) :
    Except BTErr Unit × BTree R :=
  let oldTotalNodes := t.totalNodes
  let newTotalNodes := fcbEOF / t.nodeSize
  let t := { t with fcbEOF := fcbEOF, totalNodes := newTotalNodes }
  if newTotalNodes > c.totalMapBits then
    let mapNodeRecSize := t.nodeSize - 14 - 6
    let newMapNodes := ((newTotalNodes - c.totalMapBits) >>> 3) / mapNodeRecSize + 1
    let last := t.nodes c.mapNode
    let t := t.setNode c.mapNode { last with fLink := oldTotalNodes }
    let t := BTree.initMapNodes (newMapNodes - 1) oldTotalNodes t
    match BTree.markMapNodes io newMapNodes oldTotalNodes c t with
    | (.error e, t) => (.error e, t)
    | (.ok _, t) => (.ok (), { t with
        freeNodes := (t.freeNodes + 2 ^ 32 + newTotalNodes - oldTotalNodes + 2 ^ 32 -
          newMapNodes) % 2 ^ 32 })
  else
    (.ok (), { t with
      freeNodes := (t.freeNodes + 2 ^ 32 + newTotalNodes - oldTotalNodes) % 2 ^ 32 })

/-- `ExtendBTree`: extend the file to at least `newTotalNodes` nodes.  `setEndOfFork eof minEOF` is
the end of the file after the callback has extended it. -/
def BTree.extendBTree (t : BTree R) (io : FetchErrors R)
    (setEndOfFork : ℕ → ℕ → Except BTErr ℕ) (newTotalNodes : ℕ) : Except BTErr Unit × BTree R :=
  if newTotalNodes ≤ t.totalNodes then (.ok (), t)
  else
    match t.countMapBits io (t.totalNodes + 1) none 0 with
    | .error e => (.error e, t)
    | .ok c =>
      let minEOF := newTotalNodes * t.nodeSize % 2 ^ 32
      if t.fcbEOF < minEOF then
        match setEndOfFork t.fcbEOF minEOF with
        | .error e => (.error e, t)
        | .ok fcbEOF => t.addMapNodes io c fcbEOF
      else t.addMapNodes io c t.fcbEOF

end Darwin.Hfs
