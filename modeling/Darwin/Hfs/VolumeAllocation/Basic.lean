import Darwin.Lib.WordBitmap

/-!
# The volume block allocator

A model of `Misc/VolumeAllocation.c`.  The volume bitmap is a memory of 32-bit words, 128 words to a
bitmap block; `ReadBitmapBlock` brings in the bitmap block of an allocation block and fails where the
volume cannot be read.  `BlockAllocate` looks for free space either bit by bit (`BlockAllocateAny`)
or for a contiguous range from back to front (`BlockFindContiguous`), and marks it word by word
(`BlockMarkAllocated`).  All block numbers and counts are 32-bit; sums and differences that can wrap
are reduced explicitly.
-/

namespace Darwin.Hfs

open Darwin.WordBitmap
open Function (update)

/-- The result codes of the allocator.  A read error is never the disk-full code. -/
inductive AllocErr where
  | dskFulErr
  | ioErr (code : ℕ)
  /-- The bound on the iterations of a modelled loop was reached; the C loop has no such exit. -/
  | unfinished
  deriving DecidableEq, Repr

/-- The words of the volume bitmap, in the order of the bits they hold. -/
abbrev BitmapWords := ℕ → BitVec 32

/-- The fields of an `ExtendedVCB` that the allocator uses. -/
structure Vcb where
  /-- Allocation block size in bytes, a multiple of 512. -/
  blockSize : ℕ
  /-- Number of allocation blocks on the volume. -/
  totalBlocks : ℕ
  /-- Free block count. -/
  freeBlocks : ℕ
  /-- The roving allocation pointer. -/
  nextAllocation : ℕ
  /-- Allocation block size of the HFS wrapper, in bytes. -/
  vcbAlBlkSiz : ℕ
  /-- Free block count in units of the HFS wrapper. -/
  vcbFreeBks : ℕ
  bitmap : BitmapWords
  blockSize_ge : 512 ≤ blockSize
  totalBlocks_lt : totalBlocks < 2 ^ 32

/-- The bitmap blocks that cannot be read during a call, with the error the read returns. -/
abbrev ReadErrors := ℕ → Option ℕ

/-- `ReadBitmapBlock`: the index of the first word of the bitmap block that holds `block`. -/
def readBitmapBlock (io : ReadErrors) (block : ℕ) : Except AllocErr ℕ :=
  match io (block / 4096) with
  | none => .ok (block / 4096 * 128)
  | some code => .error (.ioErr code)

/-- `DivideAndRoundUp`. -/
def divideAndRoundUp (numerator denominator : ℕ) : ℕ :=
  let quotient := numerator / denominator
  if quotient * denominator % 2 ^ 32 ≠ numerator then quotient + 1 else quotient

/-- `UpdateVCBFreeBlks`: recompute the 16-bit free count of the HFS wrapper. -/
def updateVCBFreeBlks (vcb : Vcb) : Vcb :=
  let plusBlockSize := vcb.blockSize >>> 9
  let hfsBlockSize := vcb.vcbAlBlkSiz >>> 9
  let hfsCompatabilityFreeBlocks := vcb.freeBlocks * plusBlockSize % 2 ^ 32 / hfsBlockSize
  { vcb with vcbFreeBks := if hfsCompatabilityFreeBlocks > 0xFFFF then 0xFFFF
      else hfsCompatabilityFreeBlocks }

/-! ## Walking the bitmap forward, one bit at a time -/

/-- A forward position: the current word, the words left in its bitmap block, and the mask of the
current bit. -/
structure Cursor where
  buffer : ℕ
  wordsLeft : ℕ
  bitMask : BitVec 32

/-- The position of `block` in the bitmap block whose first word is `base`. -/
def Cursor.at (base block : ℕ) : Cursor :=
  let wordIndexInBlock := block % 4096 / 32
  ⟨base + wordIndexInBlock, 128 - wordIndexInBlock, 0x80000000#32 >>> (block % 32)⟩

/-- Move to the next word, which holds `block` in its first bit. -/
def Cursor.nextWord (io : ReadErrors) (block : ℕ) (c : Cursor) : Except AllocErr Cursor :=
  if c.wordsLeft - 1 = 0 then
    match readBitmapBlock io block with
    | .ok base => .ok ⟨base, 128, 0x80000000#32⟩
    | .error e => .error e
  else .ok ⟨c.buffer + 1, c.wordsLeft - 1, 0x80000000#32⟩

/-- The first loop of `BlockAllocateAny`: skip allocated blocks.  `left` counts the blocks before
`endingBlock`. -/
def skipAllocated (io : ReadErrors) (words : BitmapWords) :
    (left block : ℕ) → (currentWord : BitVec 32) → Cursor → Except AllocErr (ℕ × BitVec 32 × Cursor)
  | 0, block, currentWord, c => .ok (block, currentWord, c)
  | left + 1, block, currentWord, c =>
    if currentWord &&& c.bitMask = 0#32 then .ok (block, currentWord, c)
    else if c.bitMask >>> 1 = 0#32 then
      match c.nextWord io (block + 1) with
      | .ok c => skipAllocated io words left (block + 1) (words c.buffer) c
      | .error e => .error e
    else skipAllocated io words left (block + 1) currentWord { c with bitMask := c.bitMask >>> 1 }

/-- The second loop of `BlockAllocateAny`: allocate consecutive free blocks up to `endingBlock`.
The running word is local and written back when the walk leaves it.  The block number wraps, so the
loop ends after `2 ^ 32` iterations at the latest. -/
def allocateRun (io : ReadErrors) (endingBlock : ℕ) :
    (left block : ℕ) → BitmapWords → (currentWord : BitVec 32) → Cursor →
      Except AllocErr ℕ × BitmapWords
  | 0, _, words, currentWord, c =>
    (.error .unfinished, update words c.buffer currentWord)
  | left + 1, block, words, currentWord, c =>
    if currentWord &&& c.bitMask ≠ 0#32 then
      (.ok block, update words c.buffer currentWord)
    else
      let currentWord := currentWord ||| c.bitMask
      let block := (block + 1) % 2 ^ 32
      if block = endingBlock then (.ok block, update words c.buffer currentWord)
      else if c.bitMask >>> 1 = 0#32 then
        let words := update words c.buffer currentWord
        match c.nextWord io block with
        | .ok c => allocateRun io endingBlock left block words (words c.buffer) c
        | .error e => (.error e, words)
      else
        allocateRun io endingBlock left block words currentWord
          { c with bitMask := c.bitMask >>> 1 }

/-- `BlockAllocateAny`: allocate the first free blocks of `[startingBlock, endingBlock)`. -/
def blockAllocateAny (io : ReadErrors) (words : BitmapWords)
    (startingBlock endingBlock maxBlocks : ℕ) : Except AllocErr (ℕ × ℕ) × BitmapWords :=
  let range := (endingBlock + 2 ^ 32 - startingBlock) % 2 ^ 32
  let maxBlocks := if maxBlocks > range then range else maxBlocks
  match readBitmapBlock io startingBlock with
  | .error e => (.error e, words)
  | .ok base =>
    let c := Cursor.at base startingBlock
    match skipAllocated io words (endingBlock - startingBlock) startingBlock
        (words c.buffer) c with
    | .error e => (.error e, words)
    | .ok (block, currentWord, c) =>
      if block = endingBlock then (.error .dskFulErr, words)
      else
        let endingBlock :=
          if block < (endingBlock + 2 ^ 32 - maxBlocks) % 2 ^ 32
          then (block + maxBlocks) % 2 ^ 32 else endingBlock
        match allocateRun io endingBlock (2 ^ 32) block words currentWord c with
        | (.ok last, words) => (.ok (block, (last + 2 ^ 32 - block) % 2 ^ 32), words)
        | (.error e, words) => (.error e, words)

/-! ## Marking a range, one word at a time -/

/-- A position of a marking routine: a block number in the current bitmap block, the next word and
the words left in the bitmap block. -/
structure MarkCursor where
  startingBlock : ℕ
  currentWord : ℕ
  wordsLeft : ℕ

/-- Read in the next bitmap block when the current one has no words left. -/
def MarkCursor.refill (io : ReadErrors) (c : MarkCursor) : Except AllocErr MarkCursor :=
  if c.wordsLeft = 0 then
    let startingBlock := (c.startingBlock + 4096) % 2 ^ 32
    match readBitmapBlock io startingBlock with
    | .ok base => .ok ⟨startingBlock, base, 128⟩
    | .error e => .error e
  else .ok c

/-- Move past the current word. -/
def MarkCursor.advance (c : MarkCursor) : MarkCursor :=
  { c with currentWord := c.currentWord + 1, wordsLeft := c.wordsLeft - 1 }

/-- The loop over whole words: store `whole` in the next words of the bitmap. -/
def markWords (io : ReadErrors) (whole : BitVec 32) :
    (wholeWords : ℕ) → BitmapWords → MarkCursor → Except AllocErr MarkCursor × BitmapWords
  | 0, words, c => (.ok c, words)
  | wholeWords + 1, words, c =>
    match c.refill io with
    | .ok c => markWords io whole wholeWords (update words c.currentWord whole) c.advance
    | .error e => (.error e, words)

/-- The special case of a first word that does not start on a word boundary: the bits to mark, and
how many they are. -/
def firstWordMask (firstBit numBlocks : ℕ) : BitVec 32 × ℕ :=
  let bitMask := 0xFFFFFFFF#32 >>> firstBit
  let numBits := 32 - firstBit
  if numBits > numBlocks then
    (bitMask &&& ~~~(0xFFFFFFFF#32 >>> (firstBit + numBlocks)), numBlocks)
  else (bitMask, numBits)

/-- The common body of `BlockMarkAllocated` and `BlockMarkFree`: `part word mask` marks the bits of
`mask` in a word, and `whole` is a word with every bit marked. -/
def blockMark (part : BitVec 32 → BitVec 32 → BitVec 32) (whole : BitVec 32) (io : ReadErrors)
    (words : BitmapWords) (startingBlock numBlocks : ℕ) : Except AllocErr Unit × BitmapWords :=
  match readBitmapBlock io startingBlock with
  | .error e => (.error e, words)
  | .ok base =>
    let wordIndexInBlock := startingBlock % 4096 / 32
    let c : MarkCursor := ⟨startingBlock, base + wordIndexInBlock, 128 - wordIndexInBlock⟩
    let firstBit := startingBlock % 32
    let first := firstWordMask firstBit numBlocks
    let start : BitmapWords × ℕ × MarkCursor :=
      if firstBit ≠ 0 then
        (update words c.currentWord (part (words c.currentWord) first.1),
          numBlocks - first.2, c.advance)
      else (words, numBlocks, c)
    match markWords io whole (start.2.1 / 32) start.1 start.2.2 with
    | (.error e, words) => (.error e, words)
    | (.ok c, words) =>
      if start.2.1 % 32 ≠ 0 then
        match c.refill io with
        | .error e => (.error e, words)
        | .ok c => (.ok (), update words c.currentWord
            (part (words c.currentWord) (~~~(0xFFFFFFFF#32 >>> (start.2.1 % 32)))))
      else (.ok (), words)

/-- `BlockMarkAllocated`. -/
def blockMarkAllocated (io : ReadErrors) (words : BitmapWords) (startingBlock numBlocks : ℕ) :
    Except AllocErr Unit × BitmapWords :=
  blockMark (fun word bitMask => word ||| bitMask) 0xFFFFFFFF#32 io words startingBlock numBlocks

/-- `BlockMarkFree`. -/
def blockMarkFree (io : ReadErrors) (words : BitmapWords) (startingBlock numBlocks : ℕ) :
    Except AllocErr Unit × BitmapWords :=
  blockMark (fun word bitMask => word &&& ~~~bitMask) 0#32 io words startingBlock numBlocks

/-! ## Searching for a contiguous range, back to front -/

/-- The variables of `BlockFindContiguous`.  `buffer` is the first word of the bitmap block
`currentSector`, and `tempWord` a copy of the current word. -/
structure Search where
  stopBlock : ℕ
  currentBlock : ℕ
  freeBlocks : ℕ
  countedFreeBlocks : ℕ
  currentSector : ℕ
  buffer : ℕ
  currentWord : ℕ
  wordsLeft : ℕ
  tempWord : BitVec 32
  bitMask : BitVec 32

namespace Search

/-- `freeBlocks + countedFreeBlocks`, the length of the range found so far. -/
def found (s : Search) : ℕ :=
  (s.freeBlocks + s.countedFreeBlocks) % 2 ^ 32

/-- Point the search at `currentBlock`, inside the bitmap block already in the buffer. -/
def point (words : BitmapWords) (s : Search) : Search :=
  let wordIndexInBlock := s.currentBlock % 4096 / 32
  { s with
    wordsLeft := wordIndexInBlock
    currentWord := s.buffer + wordIndexInBlock
    tempWord := words (s.buffer + wordIndexInBlock)
    bitMask := 0x80000000#32 >>> (s.currentBlock % 32) }

/-- Bring in the bitmap block of `currentBlock` when it is not the one in the buffer. -/
def load (io : ReadErrors) (s : Search) : Except AllocErr Search :=
  if s.currentSector ≠ s.currentBlock / 4096 then
    match readBitmapBlock io s.currentBlock with
    | .ok base => .ok { s with buffer := base, currentSector := s.currentBlock / 4096 }
    | .error e => .error e
  else .ok s

/-- The step from label `NextWord` to the test of the word: move to the preceding word, in the
preceding bitmap block if need be. -/
def previousWord (io : ReadErrors) (words : BitmapWords) (s : Search) :
    Except AllocErr Search :=
  if s.wordsLeft ≠ 0 then
    .ok { s with currentWord := s.currentWord - 1, wordsLeft := s.wordsLeft - 1
                 tempWord := words (s.currentWord - 1) }
  else
    match readBitmapBlock io s.currentBlock with
    | .ok base => .ok { s with
        buffer := base, currentSector := s.currentBlock / 4096, currentWord := base + 127
        wordsLeft := 127, tempWord := words (base + 127) }
    | .error e => .error e

/-- Count a whole word of free blocks. -/
def countWord (s : Search) : Search :=
  { s with
    freeBlocks := (s.freeBlocks + 32) % 2 ^ 32
    currentBlock := (s.currentBlock + 2 ^ 32 - 32) % 2 ^ 32 }

variable (s : Search)

include s

@[simp] theorem countWord_stopBlock : s.countWord.stopBlock = s.stopBlock := by
  rw [countWord]

@[simp] theorem countWord_freeBlocks :
    s.countWord.freeBlocks = (s.freeBlocks + 32) % 2 ^ 32 := by
  rw [countWord]

@[simp] theorem countWord_currentBlock :
    s.countWord.currentBlock = (s.currentBlock + 2 ^ 32 - 32) % 2 ^ 32 := by
  rw [countWord]

@[simp] theorem countWord_countedFreeBlocks :
    s.countWord.countedFreeBlocks = s.countedFreeBlocks := by
  rw [countWord]

@[simp] theorem countWord_buffer : s.countWord.buffer = s.buffer := by
  rw [countWord]

@[simp] theorem countWord_currentSector :
    s.countWord.currentSector = s.currentSector := by
  rw [countWord]

@[simp] theorem countWord_currentWord :
    s.countWord.currentWord = s.currentWord := by
  rw [countWord]

@[simp] theorem countWord_wordsLeft : s.countWord.wordsLeft = s.wordsLeft := by
  rw [countWord]

@[simp] theorem countWord_bitMask : s.countWord.bitMask = s.bitMask := by
  rw [countWord]

/-- The loop at label `NextWord`: skip whole words of free blocks.  The flag tells that enough
blocks were found, which leaves the outer loop. -/
def nextWord (io : ReadErrors) (words : BitmapWords) (minBlocks : ℕ) :
    (fuel : ℕ) → Search → Except AllocErr (Search × Bool)
  | 0, _ => .error .unfinished
  | fuel + 1, s =>
    match s.previousWord io words with
    | .error e => .error e
    | .ok s =>
      if s.tempWord = 0#32 then
        if s.countWord.found ≥ minBlocks then .ok (s.countWord, true)
        else nextWord io words minBlocks fuel s.countWord
      else .ok (s, false)

/-- Count a free block and move to the preceding bit. -/
def countBlock (s : Search) : Search :=
  { s with
    freeBlocks := (s.freeBlocks + 1) % 2 ^ 32
    currentBlock := (s.currentBlock + 2 ^ 32 - 1) % 2 ^ 32
    bitMask := s.bitMask <<< 1 }

@[simp] theorem countBlock_stopBlock :
    s.countBlock.stopBlock = s.stopBlock := by
  rw [countBlock]

@[simp] theorem countBlock_freeBlocks :
    s.countBlock.freeBlocks = (s.freeBlocks + 1) % 2 ^ 32 := by
  rw [countBlock]

@[simp] theorem countBlock_currentBlock :
    s.countBlock.currentBlock = (s.currentBlock + 2 ^ 32 - 1) % 2 ^ 32 := by
  rw [countBlock]

@[simp] theorem countBlock_countedFreeBlocks :
    s.countBlock.countedFreeBlocks = s.countedFreeBlocks := by
  rw [countBlock]

@[simp] theorem countBlock_buffer : s.countBlock.buffer = s.buffer := by
  rw [countBlock]

@[simp] theorem countBlock_currentSector :
    s.countBlock.currentSector = s.currentSector := by
  rw [countBlock]

@[simp] theorem countBlock_currentWord :
    s.countBlock.currentWord = s.currentWord := by
  rw [countBlock]

@[simp] theorem countBlock_wordsLeft :
    s.countBlock.wordsLeft = s.wordsLeft := by
  rw [countBlock]

@[simp] theorem countBlock_tempWord : s.countBlock.tempWord = s.tempWord := by
  rw [countBlock]

@[simp] theorem countBlock_bitMask :
    s.countBlock.bitMask = s.bitMask <<< 1 := by
  rw [countBlock]

omit s

/-- Start masking at the low bit of a word. -/
def lowBit (s : Search) : Search :=
  { s with bitMask := 1#32 }

/-- The branch for an allocated block: move the candidates `minBlocks` up, down to the blocks
already counted. -/
def jump (minBlocks : ℕ) (s : Search) : Search :=
  { s with
    stopBlock := (s.currentBlock + 1 + s.freeBlocks) % 2 ^ 32
    currentBlock := (s.currentBlock + minBlocks) % 2 ^ 32 }

variable (minBlocks : ℕ)

include minBlocks

@[simp] theorem jump_stopBlock (s : Search) :
    (s.jump minBlocks).stopBlock = (s.currentBlock + 1 + s.freeBlocks) % 2 ^ 32 := by
  rw [jump]

@[simp] theorem jump_currentBlock (s : Search) :
    (s.jump minBlocks).currentBlock = (s.currentBlock + minBlocks) % 2 ^ 32 := by
  rw [jump]

@[simp] theorem jump_freeBlocks (s : Search) :
    (s.jump minBlocks).freeBlocks = s.freeBlocks := by
  rw [jump]

@[simp] theorem jump_countedFreeBlocks (s : Search) :
    (s.jump minBlocks).countedFreeBlocks = s.countedFreeBlocks := by
  rw [jump]

@[simp] theorem jump_buffer (s : Search) :
    (s.jump minBlocks).buffer = s.buffer := by
  rw [jump]

@[simp] theorem jump_currentSector (s : Search) :
    (s.jump minBlocks).currentSector = s.currentSector := by
  rw [jump]

omit minBlocks

/-- Keep the free blocks just seen as counted and look for the others. -/
def restart (s : Search) : Search :=
  { s with countedFreeBlocks := s.freeBlocks, freeBlocks := 0 }

/-- The backward loop of `BlockFindContiguous`. -/
def run (io : ReadErrors) (words : BitmapWords) (endingBlock minBlocks : ℕ) :
    (fuel : ℕ) → Search → Except AllocErr Search
  | 0, _ => .error .unfinished
  | fuel + 1, s =>
    if s.currentBlock < s.stopBlock then .ok s
    else if s.tempWord &&& s.bitMask = 0#32 then
      if s.countBlock.bitMask = 0#32 then
        match nextWord io words minBlocks fuel s.countBlock.lowBit with
        | .error e => .error e
        | .ok (s, true) => .ok s
        | .ok (s, false) => run io words endingBlock minBlocks fuel s
      else run io words endingBlock minBlocks fuel s.countBlock
    else if s.found ≥ minBlocks then .ok s
    else if (s.jump minBlocks).currentBlock ≥ endingBlock then .ok (s.jump minBlocks)
    else
      match (s.jump minBlocks).restart.load io with
      | .error e => .error e
      | .ok s => run io words endingBlock minBlocks fuel (s.point words)

end Search

/-- The forward loop of `BlockFindContiguous`: extend the range found to at most `maxBlocks`.
`left` counts the blocks before `endingBlock`. -/
def extendFound (io : ReadErrors) (words : BitmapWords) (maxBlocks : ℕ) :
    (left currentBlock : ℕ) → (tempWord : BitVec 32) → Cursor → (actualNumBlocks : ℕ) →
      Except AllocErr ℕ
  | 0, _, _, _, actualNumBlocks => .ok actualNumBlocks
  | left + 1, currentBlock, tempWord, c, actualNumBlocks =>
    if tempWord &&& c.bitMask ≠ 0#32 then .ok actualNumBlocks
    else if actualNumBlocks + 1 = maxBlocks then .ok (actualNumBlocks + 1)
    else if c.bitMask >>> 1 = 0#32 then
      match c.nextWord io (currentBlock + 1) with
      | .ok c =>
        extendFound io words maxBlocks left (currentBlock + 1) (words c.buffer) c
          (actualNumBlocks + 1)
      | .error e => .error e
    else
      extendFound io words maxBlocks left (currentBlock + 1) tempWord
        { c with bitMask := c.bitMask >>> 1 } (actualNumBlocks + 1)

/-- A bound on the iterations of the backward loop. -/
@[irreducible] def searchFuel : ℕ := 2 ^ 64

/-- The start of a search: the candidates are the `minBlocks` blocks from `startingBlock` on. -/
def Search.start (io : ReadErrors) (words : BitmapWords) (startingBlock currentBlock : ℕ) :
    Except AllocErr Search :=
  match readBitmapBlock io currentBlock with
  | .error e => .error e
  | .ok base => .ok (Search.point words
      ⟨startingBlock, currentBlock, 0, 0, currentBlock / 4096, base, 0, 0, 0#32, 0#32⟩)

/-- The end of a search that found `minBlocks` blocks from `actualStartBlock` on: look for further
free blocks from `currentBlock` on. -/
def Search.finish (io : ReadErrors) (words : BitmapWords)
    (endingBlock minBlocks maxBlocks actualStartBlock : ℕ) (s : Search) :
    Except AllocErr (ℕ × ℕ) :=
  match s.load io with
  -- The space is already found, so a failure to look further is not an error.
  | .error _ => .ok (actualStartBlock, minBlocks)
  | .ok s =>
    if minBlocks < maxBlocks then
      let c := Cursor.at s.buffer s.currentBlock
      match extendFound io words maxBlocks (endingBlock - s.currentBlock) s.currentBlock
          (words c.buffer) c minBlocks with
      | .ok actualNumBlocks => .ok (actualStartBlock, actualNumBlocks)
      | .error e => .error e
    else .ok (actualStartBlock, minBlocks)

/-- The first block of the range a search has found. -/
def Search.actualStartBlock (s : Search) : ℕ :=
  (s.stopBlock + 2 ^ 32 - s.countedFreeBlocks) % 2 ^ 32

/-- `BlockFindContiguous`: a range of at least `minBlocks` free blocks, extended up to
`maxBlocks`. -/
def blockFindContiguous (io : ReadErrors) (words : BitmapWords)
    (startingBlock endingBlock minBlocks maxBlocks : ℕ) : Except AllocErr (ℕ × ℕ) :=
  if (endingBlock + 2 ^ 32 - startingBlock) % 2 ^ 32 < minBlocks then .error .dskFulErr
  else
    match Search.start io words startingBlock ((startingBlock + minBlocks + 2 ^ 32 - 1) % 2 ^ 32)
        with
    | .error e => .error e
    | .ok s =>
      match Search.run io words endingBlock minBlocks searchFuel s with
      | .error e => .error e
      | .ok s =>
        if s.found < minBlocks then .error .dskFulErr
        else
          Search.finish io words endingBlock minBlocks maxBlocks s.actualStartBlock
            { s with currentBlock := (s.actualStartBlock + minBlocks) % 2 ^ 32 }

/-- The second search of `BlockAllocateContig`, made when the first reports a full disk. -/
def retryIfFull (first second : Except AllocErr (ℕ × ℕ)) : Except AllocErr (ℕ × ℕ) :=
  match first with
  | .error .dskFulErr => second
  | .error e => .error e
  | .ok found => .ok found

/-- Mark the range a search has found. -/
def markFound (io : ReadErrors) (words : BitmapWords) :
    Except AllocErr (ℕ × ℕ) → Except AllocErr (ℕ × ℕ) × BitmapWords
  | .error e => (.error e, words)
  | .ok found =>
    match blockMarkAllocated io words found.1 found.2 with
    | (.ok _, words) => (.ok found, words)
    | (.error e, words) => (.error e, words)

/-- `BlockAllocateContig`: search from `startingBlock`, then from the start of the volume, and mark
the range found. -/
def blockAllocateContig (io : ReadErrors) (words : BitmapWords)
    (totalBlocks startingBlock minBlocks maxBlocks : ℕ) :
    Except AllocErr (ℕ × ℕ) × BitmapWords :=
  markFound io words
    (retryIfFull (blockFindContiguous io words startingBlock totalBlocks minBlocks maxBlocks)
      (blockFindContiguous io words 0 totalBlocks minBlocks maxBlocks))

/-- The two passes of a non-contiguous allocation: up to the end of the volume, and when that is
full from its start up to `startingBlock`. -/
def blockAllocateAround (io : ReadErrors) (words : BitmapWords)
    (totalBlocks startingBlock maxBlocks : ℕ) : Except AllocErr (ℕ × ℕ) × BitmapWords :=
  match blockAllocateAny io words startingBlock totalBlocks maxBlocks with
  | (.error .dskFulErr, words) => blockAllocateAny io words 0 startingBlock maxBlocks
  | (.error e, words) => (.error e, words)
  | (.ok found, words) => (.ok found, words)

/-! ## The entry points -/

/-- `BlockAllocate`: allocate between `bytesRequested` and `bytesMaximum` bytes near
`startingBlock`, or near the roving pointer when that is zero.  Returns the first block and the
number of blocks. -/
def blockAllocate (io : ReadErrors) (vcb : Vcb)
    (startingBlock bytesRequested bytesMaximum : ℕ) (forceContiguous : Bool) :
    Except AllocErr (ℕ × ℕ) × Vcb :=
  let minBlocks := divideAndRoundUp bytesRequested vcb.blockSize
  let maxBlocks := divideAndRoundUp bytesMaximum vcb.blockSize
  if vcb.freeBlocks = 0 then (.error .dskFulErr, vcb)
  else if forceContiguous ∧ vcb.freeBlocks < minBlocks then (.error .dskFulErr, vcb)
  else
    let updateAllocPtr := startingBlock = 0
    let startingBlock := if startingBlock = 0 then vcb.nextAllocation else startingBlock
    let allocated :=
      if forceContiguous then
        blockAllocateContig io vcb.bitmap vcb.totalBlocks startingBlock minBlocks maxBlocks
      else blockAllocateAround io vcb.bitmap vcb.totalBlocks startingBlock maxBlocks
    match allocated with
    | (.error e, words) => (.error e, { vcb with bitmap := words })
    | (.ok (actualStartBlock, actualNumBlocks), words) =>
      (.ok (actualStartBlock, actualNumBlocks), updateVCBFreeBlks { vcb with
        bitmap := words
        nextAllocation := if updateAllocPtr then actualStartBlock else vcb.nextAllocation
        freeBlocks := (vcb.freeBlocks + 2 ^ 32 - actualNumBlocks) % 2 ^ 32 })

/-- `BlockDeallocate`: free a range of blocks. -/
def blockDeallocate (io : ReadErrors) (vcb : Vcb) (firstBlock numBlocks : ℕ) :
    Except AllocErr Unit × Vcb :=
  if numBlocks = 0 then (.ok (), vcb)
  else
    match blockMarkFree io vcb.bitmap firstBlock numBlocks with
    | (.error e, words) => (.error e, { vcb with bitmap := words })
    | (.ok _, words) =>
      (.ok (), updateVCBFreeBlks { vcb with
        bitmap := words
        freeBlocks := (vcb.freeBlocks + numBlocks) % 2 ^ 32 })

/-! ## Recomputing the free count -/

private theorem and_sub_one_lt {temp : BitVec 32} (nonzero : temp ≠ 0#32) :
    (temp &&& (temp - 1#32)).toNat < temp.toNat := by
  have below : (temp &&& (temp - 1#32)).toNat ≤ (temp - 1#32).toNat := by
    rw [BitVec.toNat_and]
    exact Nat.and_le_right
  have pred : (temp - 1#32).toNat < temp.toNat := by
    bv_omega
  exact lt_of_le_of_lt below pred

/-- Count the set bits of a word by clearing its least significant set bit. -/
def countSetBits (temp : BitVec 32) : ℕ :=
  if nonzero : temp ≠ 0#32 then 1 + countSetBits (temp &&& (temp - 1#32)) else 0
termination_by temp.toNat
decreasing_by exact and_sub_one_lt nonzero

/-- Count the set bits among the first `numBlocks` bits of a word. -/
def countHighBits : (numBlocks : ℕ) → BitVec 32 → ℕ
  | 0, _ => 0
  | numBlocks + 1, temp =>
    (if temp &&& 0x80000000#32 ≠ 0#32 then 1 else 0) + countHighBits numBlocks (temp <<< 1)

/-- The loop of `UpdateFreeCount` over whole words. -/
def countFreeWords (io : ReadErrors) (words : BitmapWords) :
    (wholeWords : ℕ) → MarkCursor → (freeCount : ℕ) → Except AllocErr (MarkCursor × ℕ)
  | 0, c, freeCount => .ok (c, freeCount)
  | wholeWords + 1, c, freeCount =>
    match c.refill io with
    | .error e => .error e
    | .ok c =>
      countFreeWords io words wholeWords c.advance
        ((freeCount + countSetBits (~~~(words c.currentWord))) % 2 ^ 32)

/-- `UpdateFreeCount`: scan the bitmap and store the number of clear bits. -/
def updateFreeCount (io : ReadErrors) (vcb : Vcb) : Except AllocErr Unit × Vcb :=
  match readBitmapBlock io 0 with
  | .error e => (.error e, vcb)
  | .ok base =>
    match countFreeWords io vcb.bitmap (vcb.totalBlocks / 32) ⟨0, base, 128⟩ 0 with
    | .error e => (.error e, vcb)
    | .ok (c, freeCount) =>
      if vcb.totalBlocks % 32 ≠ 0 then
        match c.refill io with
        | .error e => (.error e, vcb)
        | .ok c =>
          let rest := countHighBits (vcb.totalBlocks % 32) (~~~(vcb.bitmap c.currentWord))
          (.ok (), updateVCBFreeBlks { vcb with freeBlocks := (freeCount + rest) % 2 ^ 32 })
      else (.ok (), updateVCBFreeBlks { vcb with freeBlocks := freeCount })

end Darwin.Hfs
