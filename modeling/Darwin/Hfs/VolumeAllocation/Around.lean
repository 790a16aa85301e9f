import Darwin.Hfs.VolumeAllocation.Invariant

/-!
# Allocating around the volume

When `BlockAllocateAny` succeeds, what it then finds, and what stops it.  The walk over allocated
blocks moves to the next word before it looks at the end of its range, so at the end of a volume
that fills its last bitmap block it reads a bitmap block the volume does not have.  The error of
that read ends `BlockAllocate`: only a full disk sends it to the start of the volume.

## Main results

* `blockAllocateAny_free` — a range with a free block is allocated from its first one
* `blockAllocateAny_full`, `blockAllocateAny_overrun` — what becomes of a range without one
* `blockAllocate_around_iff` — exactly when an allocation finds the first free block around the
  volume
-/

namespace Darwin.Hfs

open Darwin.WordBitmap

/-! ## Walks that are not stopped by a read -/

section Walk

variable {io : ReadErrors} {words : BitmapWords} {c : Cursor} {block : ℕ}

theorem readBitmapBlock_of_readable (readable : io (block / 4096) = none) :
    readBitmapBlock io block = .ok (block / 4096 * 128) := by
  rw [readBitmapBlock, readable]

theorem readBitmapBlock_of_unreadable {code : ℕ} (unreadable : io (block / 4096) = some code) :
    readBitmapBlock io block = .error (.ioErr code) := by
  rw [readBitmapBlock, unreadable]

/-- Only a step over the end of a bitmap block reads anything. -/
theorem Cursor.Stands.exists_nextWord (stands : c.Stands block) (last : c.bitMask >>> 1 = 0#32)
    (readable : (block + 1) % 4096 = 0 → io ((block + 1) / 4096) = none) :
    ∃ c', c.nextWord io (block + 1) = .ok c' := by
  rw [stands.shift_eq_zero] at last
  unfold Cursor.nextWord
  split_ifs with boundary
  · rw [stands.wordsLeft] at boundary
    rw [readBitmapBlock_of_readable (readable (by omega))]
    exact ⟨_, rfl⟩
  · exact ⟨_, rfl⟩

theorem Cursor.Stands.nextWord_unreadable {code : ℕ} (stands : c.Stands block)
    (aligned : (block + 1) % 4096 = 0) (unreadable : io ((block + 1) / 4096) = some code) :
    c.nextWord io (block + 1) = .error (.ioErr code) := by
  have boundary : c.wordsLeft - 1 = 0 := by
    rw [stands.wordsLeft]
    omega
  unfold Cursor.nextWord
  rw [if_pos boundary, readBitmapBlock_of_unreadable unreadable]

/-- What ends the walk over allocated blocks in `[low, high)`: a free block, or an end of the range
that can be read or needs no read. -/
def StopsBefore (io : ReadErrors) (words : BitmapWords) (low high : ℕ) : Prop :=
  (∃ b, low ≤ b ∧ b < high ∧ bit words b = false) ∨ high % 4096 ≠ 0 ∨ io (high / 4096) = none

theorem StopsBefore.next {high : ℕ} (stops : StopsBefore io words block high)
    (used : ¬ bit words block = false) : StopsBefore io words (block + 1) high := by
  rcases stops with ⟨b, low, below, clear⟩ | ending
  · rcases eq_or_lt_of_le low with rfl | above
    · exact absurd clear used
    · exact .inl ⟨b, above, below, clear⟩
  · exact .inr ending

theorem exists_skipAllocated {left : ℕ} (stands : c.Stands block)
    (readable : ∀ b < block + left, io (b / 4096) = none)
    (stops : StopsBefore io words block (block + left)) :
    ∃ reached, skipAllocated io words left block (words c.buffer) c = .ok reached := by
  induction left generalizing block c with
  | zero => exact ⟨_, rfl⟩
  | succ left ih =>
    unfold skipAllocated
    simp only [stands.and_eq_zero words]
    have shifted : block + 1 + left = block + (left + 1) := by omega
    split_ifs with free last
    · exact ⟨_, rfl⟩
    · have onward : (block + 1) % 4096 = 0 → io ((block + 1) / 4096) = none := by
        intro aligned
        rcases Nat.eq_zero_or_pos left with zero | more
        · subst zero
          rcases stops with ⟨b, low, high, clear⟩ | unaligned | last
          · obtain rfl : b = block := by omega
            exact absurd clear free
          · exact absurd aligned unaligned
          · exact last
        · exact readable _ (by omega)
      obtain ⟨c', next⟩ := stands.exists_nextWord last onward
      rw [next]
      refine ih (stands.nextWord last next) (shifted ▸ readable) ?_
      rw [shifted]
      exact stops.next free
    · refine ih (stands.shift last) (shifted ▸ readable) ?_
      rw [shifted]
      exact stops.next free

/-- A walk over a full range reads the bitmap block after the last one, and fails with it. -/
theorem skipAllocated_overrun {left code : ℕ} (stands : c.Stands block) (positive : 0 < left)
    (readable : ∀ b < block + left, io (b / 4096) = none)
    (full : ∀ b, block ≤ b → b < block + left → bit words b = true)
    (aligned : (block + left) % 4096 = 0) (unreadable : io ((block + left) / 4096) = some code) :
    skipAllocated io words left block (words c.buffer) c = .error (.ioErr code) := by
  induction left generalizing block c with
  | zero => omega
  | succ left ih =>
    have used : ¬ bit words block = false := by
      rw [full block le_rfl (by omega)]
      exact Bool.noConfusion
    have shifted : block + 1 + left = block + (left + 1) := by omega
    unfold skipAllocated
    simp only [stands.and_eq_zero words, if_neg used]
    rcases Nat.eq_zero_or_pos left with zero | more
    · subst zero
      have last : c.bitMask >>> 1 = 0#32 := by
        rw [stands.shift_eq_zero]
        omega
      rw [if_pos last, stands.nextWord_unreadable aligned unreadable]
    · have rest : ∀ {c' : Cursor}, c'.Stands (block + 1) →
          skipAllocated io words left (block + 1) (words c'.buffer) c' =
            .error (.ioErr code) := by
        intro c' stands'
        apply ih stands' more
        · rwa [shifted]
        · intro b low high
          exact full b (by omega) (by omega)
        · rwa [shifted]
        · rwa [shifted]
      split_ifs with last
      · obtain ⟨c', next⟩ := stands.exists_nextWord last fun _ => readable _ (by omega)
        rw [next]
        exact rest (stands.nextWord last next)
      · exact rest (stands.shift last)

/-- The loop over free blocks looks at the end of its range first, and reads only inside it. -/
theorem exists_allocateRun {endingBlock left : ℕ} {currentWord : BitVec 32}
    (stands : c.Stands block) (below : block < endingBlock) (bound : endingBlock < 2 ^ 32)
    (enough : endingBlock ≤ block + left) (readable : ∀ b < endingBlock, io (b / 4096) = none) :
    ∃ last words', allocateRun io endingBlock left block words currentWord c =
      (.ok last, words') := by
  induction left generalizing block words currentWord c with
  | zero => omega
  | succ left ih =>
    have wrap : (block + 1) % 2 ^ 32 = block + 1 := Nat.mod_eq_of_lt (by omega)
    unfold allocateRun
    dsimp only
    rw [wrap]
    split_ifs with used finished last
    · exact ⟨_, _, rfl⟩
    · exact ⟨_, _, rfl⟩
    · obtain ⟨c', next⟩ := stands.exists_nextWord last fun _ => readable _ (by omega)
      rw [next]
      exact ih (stands.nextWord last next) (by omega) (by omega)
    · exact ih (stands.shift last) (by omega) (by omega)

end Walk

/-! ## One pass -/

section Pass

variable {io : ReadErrors} {words words' : BitmapWords}
  {startingBlock endingBlock maxBlocks start count : ℕ}

/-- `first` is the first free block of `[low, high)`. -/
structure FirstFree (words : BitmapWords) (low high first : ℕ) : Prop where
  lower : low ≤ first
  upper : first < high
  free : bit words first = false
  least : ∀ b, low ≤ b → b < first → bit words b = true

/-- Every block of `[low, high)` is allocated. -/
def RangeFull (words : BitmapWords) (low high : ℕ) : Prop :=
  ∀ b, low ≤ b → b < high → bit words b = true

theorem exists_free_of_not_full {low high : ℕ} (some_free : ¬ RangeFull words low high) :
    ∃ b, low ≤ b ∧ b < high ∧ bit words b = false := by
  unfold RangeFull at some_free
  push Not at some_free
  obtain ⟨b, lower, upper, free⟩ := some_free
  exact ⟨b, lower, upper, Bool.eq_false_of_not_eq_true free⟩

/-- Whatever a pass returns starts at the first free block of its range. -/
theorem blockAllocateAny_first (order : startingBlock ≤ endingBlock)
    (allocated : blockAllocateAny io words startingBlock endingBlock maxBlocks =
      (.ok (start, count), words')) : FirstFree words startingBlock endingBlock start := by
  unfold blockAllocateAny at allocated
  dsimp only at allocated
  split at allocated
  · cases allocated
  next base read =>
  split at allocated
  · cases allocated
  next block word c skipped =>
  obtain ⟨lower, upper, -, -, free, passed⟩ :=
    skipAllocated_spec (Cursor.stands_at (readBitmapBlock_ok read)) rfl skipped
  by_cases full : block = endingBlock
  · rw [if_pos full] at allocated
    cases allocated
  rw [if_neg full] at allocated
  have same : start = block := by
    split at allocated
    · exact (Prod.mk.inj (Except.ok.inj (Prod.mk.inj allocated).1)).1.symm
    · cases (Prod.mk.inj allocated).1
  subst same
  exact ⟨lower, by omega, free (by omega), passed⟩

/-- A pass that starts past the end of its range returns the block it starts from. -/
theorem blockAllocateAny_past (past : endingBlock < startingBlock)
    (allocated : blockAllocateAny io words startingBlock endingBlock maxBlocks =
      (.ok (start, count), words')) : start = startingBlock := by
  unfold blockAllocateAny at allocated
  split at allocated
  · cases allocated
  have none_left : endingBlock - startingBlock = 0 := by omega
  rw [none_left] at allocated
  dsimp only [skipAllocated] at allocated
  rw [if_neg past.ne'] at allocated
  split at allocated
  · exact (Prod.mk.inj (Except.ok.inj (Prod.mk.inj allocated).1)).1.symm
  · cases (Prod.mk.inj allocated).1

/-- Such a pass does not report a full disk. -/
theorem blockAllocateAny_past_ne (past : endingBlock < startingBlock) :
    (blockAllocateAny io words startingBlock endingBlock maxBlocks).1 ≠ .error .dskFulErr := by
  intro full
  unfold blockAllocateAny at full
  split at full
  · next read => exact readBitmapBlock_error read (Except.error.inj full)
  have none_left : endingBlock - startingBlock = 0 := by omega
  rw [none_left] at full
  dsimp only [skipAllocated] at full
  rw [if_neg past.ne'] at full
  split at full
  · cases full
  · next run => exact allocateRun_error run (Except.error.inj full)

/-- A pass over a range with a free block reads only bitmap blocks of the range, and succeeds. -/
theorem blockAllocateAny_free (bound : endingBlock < 2 ^ 32) (positive : 0 < maxBlocks)
    (readable : ∀ b < endingBlock, io (b / 4096) = none)
    (some_free : ∃ b, startingBlock ≤ b ∧ b < endingBlock ∧ bit words b = false) :
    ∃ start count words', blockAllocateAny io words startingBlock endingBlock maxBlocks =
      (.ok (start, count), words') := by
  obtain ⟨free, lower, upper, clear⟩ := some_free
  have whole : startingBlock + (endingBlock - startingBlock) = endingBlock := by omega
  have range : (endingBlock + 2 ^ 32 - startingBlock) % 2 ^ 32 = endingBlock - startingBlock := by
    omega
  have read := @readBitmapBlock_of_readable io startingBlock (readable _ (by omega))
  have stands := Cursor.stands_at (readBitmapBlock_ok read)
  obtain ⟨⟨block, word, c⟩, skipped⟩ := @exists_skipAllocated io words _ _ (endingBlock - startingBlock)
    stands (by rwa [whole]) (.inl ⟨free, lower, by omega, clear⟩)
  obtain ⟨above, below, stands', rfl, -, passed⟩ := skipAllocated_spec stands rfl skipped
  have early : block ≤ free := by
    by_contra late
    have used := passed free lower (by omega)
    rw [clear] at used
    cases used
  unfold blockAllocateAny
  simp only [range, read, skipped]
  rw [if_neg (by omega)]
  generalize limitEq : (if maxBlocks > endingBlock - startingBlock then endingBlock - startingBlock
    else maxBlocks) = limit
  have limitLe : 0 < limit ∧ limit ≤ endingBlock - startingBlock := by
    split_ifs at limitEq <;> omega
  generalize stopEq : (if block < (endingBlock + 2 ^ 32 - limit) % 2 ^ 32
    then (block + limit) % 2 ^ 32 else endingBlock) = stop
  have stopLe : block < stop ∧ stop ≤ endingBlock := by
    have wrap : (endingBlock + 2 ^ 32 - limit) % 2 ^ 32 = endingBlock - limit := by omega
    rw [wrap] at stopEq
    split_ifs at stopEq <;> omega
  obtain ⟨last, words', run⟩ := @exists_allocateRun io words c block stop (2 ^ 32)
    (words c.buffer) stands' stopLe.1 (by omega) (by omega) fun b mem => readable b (by omega)
  rw [run]
  exact ⟨_, _, _, rfl⟩

variable (order : startingBlock ≤ endingBlock) (readable : ∀ b < endingBlock, io (b / 4096) = none)

include order readable

/-- A pass over a full range reports a full disk when the block after the range can be read, or is
not the first of a bitmap block. -/
theorem blockAllocateAny_full (ending : endingBlock % 4096 ≠ 0 ∨ io (endingBlock / 4096) = none)
    (full : RangeFull words startingBlock endingBlock) :
    blockAllocateAny io words startingBlock endingBlock maxBlocks = (.error .dskFulErr, words) := by
  have whole : startingBlock + (endingBlock - startingBlock) = endingBlock := by omega
  have first : io (startingBlock / 4096) = none := by
    rcases eq_or_lt_of_le order with rfl | below
    · rcases ending with unaligned | last
      · have sameBlock : (startingBlock - 1) / 4096 = startingBlock / 4096 := by omega
        rw [← sameBlock]
        exact readable _ (by omega)
      · exact last
    · exact readable _ below
  have read := readBitmapBlock_of_readable first
  have stands := Cursor.stands_at (readBitmapBlock_ok read)
  obtain ⟨⟨block, word, c⟩, skipped⟩ := @exists_skipAllocated io words _ _ (endingBlock - startingBlock)
    stands (by rwa [whole]) (.inr (by rwa [whole]))
  obtain ⟨above, below, -, -, free, -⟩ := skipAllocated_spec stands rfl skipped
  have reached : block = endingBlock := by
    by_contra short
    have used := full block above (by omega)
    rw [free (by omega)] at used
    cases used
  unfold blockAllocateAny
  simp only [read, skipped]
  rw [if_pos reached]

/-- Where the block after a full range begins a bitmap block that cannot be read, the pass fails
with the error of that read. -/
theorem blockAllocateAny_overrun {code : ℕ} (aligned : endingBlock % 4096 = 0)
    (unreadable : io (endingBlock / 4096) = some code)
    (full : RangeFull words startingBlock endingBlock) :
    blockAllocateAny io words startingBlock endingBlock maxBlocks =
      (.error (.ioErr code), words) := by
  have whole : startingBlock + (endingBlock - startingBlock) = endingBlock := by omega
  rcases eq_or_lt_of_le order with rfl | below
  · unfold blockAllocateAny
    simp only [readBitmapBlock_of_unreadable unreadable]
  have read := @readBitmapBlock_of_readable io startingBlock (readable _ below)
  have skipped := @skipAllocated_overrun io words _ startingBlock (endingBlock - startingBlock)
    code (Cursor.stands_at (readBitmapBlock_ok read)) (by omega) (by rwa [whole])
    (by rwa [whole]) (by rwa [whole]) (by rwa [whole])
  unfold blockAllocateAny
  simp only [read, skipped]

end Pass

/-! ## The call -/

section Call

variable {io : ReadErrors} {vcb : Vcb} {startingBlock bytesRequested bytesMaximum : ℕ}

/-- `first` is the first free block from `start` to the end of the volume or, when there is none,
from the beginning of the volume. -/
def FirstAround (words : BitmapWords) (totalBlocks start first : ℕ) : Prop :=
  FirstFree words start totalBlocks first ∨
    RangeFull words start totalBlocks ∧ FirstFree words 0 start first

/-- A non-contiguous `BlockAllocate` returns `noErr`, with one or more blocks of the volume that
were free, from the first free block around the volume on. -/
def AllocatesAround (io : ReadErrors) (vcb : Vcb)
    (startingBlock bytesRequested bytesMaximum : ℕ) : Prop :=
  ∃ first count vcb', blockAllocate io vcb startingBlock bytesRequested bytesMaximum false =
      (.ok (first, count), vcb') ∧
    Allocated vcb.bitmap vcb'.bitmap 0 vcb.totalBlocks first count ∧
    FirstAround vcb.bitmap vcb.totalBlocks (vcb.searchStart startingBlock) first

theorem exists_free (counted : vcb.FreeCountExact) (some_free : 0 < vcb.freeBlocks) :
    ∃ b < vcb.totalBlocks, bit vcb.bitmap b = false := by
  rw [counted, clearCount, Finset.card_pos] at some_free
  obtain ⟨b, clear⟩ := some_free
  rw [mem_clearBits] at clear
  exact ⟨b, clear⟩

/-- The outcome of the call is that of its two passes. -/
theorem allocatesAround_iff (some_free : 0 < vcb.freeBlocks) :
    AllocatesAround io vcb startingBlock bytesRequested bytesMaximum ↔ ∃ first count words,
        blockAllocateAround io vcb.bitmap vcb.totalBlocks (vcb.searchStart startingBlock)
          (divideAndRoundUp bytesMaximum vcb.blockSize) = (.ok (first, count), words) ∧
        Allocated vcb.bitmap words 0 vcb.totalBlocks first count ∧
        FirstAround vcb.bitmap vcb.totalBlocks (vcb.searchStart startingBlock) first := by
  unfold AllocatesAround blockAllocate
  dsimp only
  rw [← Vcb.searchStart, if_neg some_free.ne', if_neg (by simp), if_neg Bool.false_ne_true]
  constructor
  · rintro ⟨first, count, vcb', allocated, free, around⟩
    split at allocated
    · cases allocated
    next foundStart foundCount words passes =>
    obtain ⟨extent, rfl⟩ := Prod.mk.inj allocated
    cases extent
    rw [updateVCBFreeBlks_bitmap] at free
    exact ⟨_, _, words, passes, free, around⟩
  · rintro ⟨first, count, words, passes, free, around⟩
    rw [passes]
    refine ⟨_, _, _, rfl, ?_, around⟩
    rw [updateVCBFreeBlks_bitmap]
    exact free

/-- On a volume with a free block and a readable bitmap, `BlockAllocate` without `forceContiguous`
allocates from the first free block around the volume exactly when its search starts on the volume
and the walk to the end of the volume does not run into a bitmap block that cannot be read: it
meets a free block, or the volume does not end with a bitmap block, or the bitmap block past its
end can be read too. -/
theorem blockAllocate_around_iff (counted : vcb.FreeCountExact) (some_free : 0 < vcb.freeBlocks)
    (readable : ∀ b < vcb.totalBlocks, io (b / 4096) = none) (positive : 0 < bytesMaximum) :
    AllocatesAround io vcb startingBlock bytesRequested bytesMaximum ↔
      vcb.searchStart startingBlock ≤ vcb.totalBlocks ∧
        StopsBefore io vcb.bitmap (vcb.searchStart startingBlock) vcb.totalBlocks := by
  have bound := vcb.totalBlocks_lt
  have maxPositive := @divideAndRoundUp_pos bytesMaximum vcb.blockSize positive
  rw [allocatesAround_iff some_free]
  generalize vcb.searchStart startingBlock = start
  generalize divideAndRoundUp bytesMaximum vcb.blockSize = maxBlocks at maxPositive
  constructor
  · rintro ⟨first, count, words, passes, free, around⟩
    have mem : start ≤ vcb.totalBlocks := by
      by_contra past
      have lost := @blockAllocateAny_past_ne io vcb.bitmap start vcb.totalBlocks maxBlocks
        (by omega)
      unfold blockAllocateAround at passes
      split at passes
      · next full => exact lost (congrArg Prod.fst full)
      · cases passes
      next found =>
        rw [passes] at found
        have same := blockAllocateAny_past (by omega) found
        have upper := free.upper
        have nonempty := free.nonempty
        omega
    refine ⟨mem, ?_⟩
    by_contra runs_on
    simp only [StopsBefore, not_or, not_not] at runs_on
    obtain ⟨no_free, aligned, unreadable⟩ := runs_on
    obtain ⟨code, unreadable⟩ := Option.ne_none_iff_exists'.mp unreadable
    have full : RangeFull vcb.bitmap start vcb.totalBlocks := by
      by_contra partly
      exact no_free (exists_free_of_not_full partly)
    unfold blockAllocateAround at passes
    rw [blockAllocateAny_overrun mem readable aligned unreadable full] at passes
    cases passes
  · rintro ⟨mem, stops⟩
    by_cases full : RangeFull vcb.bitmap start vcb.totalBlocks
    · -- The volume is full from `start` on: the second pass meets the free block.
      have ending : vcb.totalBlocks % 4096 ≠ 0 ∨ io (vcb.totalBlocks / 4096) = none := by
        rcases stops with ⟨b, lower, upper, clear⟩ | ending
        · have used := full b lower upper
          rw [clear] at used
          cases used
        · exact ending
      obtain ⟨b, onVolume, clear⟩ := exists_free counted some_free
      have before : b < start := by
        by_contra after
        have used := full b (by omega) onVolume
        rw [clear] at used
        cases used
      obtain ⟨first, count, words, second⟩ := @blockAllocateAny_free io vcb.bitmap 0 start
        maxBlocks (by omega) maxPositive (fun b below => readable b (by omega))
        ⟨b, by omega, before, clear⟩
      have passes : blockAllocateAround io vcb.bitmap vcb.totalBlocks start maxBlocks =
          (.ok (first, count), words) := by
        rw [blockAllocateAround, blockAllocateAny_full mem readable ending full]
        exact second
      have free := (blockAllocateAround_spec mem bound maxPositive passes).1
      exact ⟨_, _, _, passes, free, .inr ⟨full, blockAllocateAny_first (by omega) second⟩⟩
    · obtain ⟨first, count, words, found⟩ := blockAllocateAny_free bound maxPositive readable
        (exists_free_of_not_full full)
      have passes : blockAllocateAround io vcb.bitmap vcb.totalBlocks start maxBlocks =
          (.ok (first, count), words) := by
        rw [blockAllocateAround, found]
      have free := (blockAllocateAround_spec mem bound maxPositive passes).1
      exact ⟨_, _, _, passes, free, .inl (blockAllocateAny_first mem found)⟩

/-- A bitmap of one readable bitmap block. -/
def oneBitmapBlock : ReadErrors :=
  fun sector => if sector = 0 then none else some 5

theorem blockAllocate_around_iff_empty : AllocatesAround oneBitmapBlock emptyVolume 40 512 1024 :=
  (blockAllocate_around_iff emptyVolume_freeCountExact (by decide)
    (by
      intro b mem
      have onVolume : b < 100 := mem
      have first : b / 4096 = 0 := by omega
      rw [first]
      rfl) (by decide)).mpr
    ⟨by decide, .inr (.inl (by decide))⟩

/-- A volume of 4096 blocks of which only the first 32 are free. -/
def fullTailVolume : Vcb where
  blockSize := 512
  totalBlocks := 4096
  freeBlocks := 32
  nextAllocation := 0
  vcbAlBlkSiz := 512
  vcbFreeBks := 32
  bitmap := fun word => if word = 0 then 0#32 else 0xFFFFFFFF#32
  blockSize_ge := emptyVolume.blockSize_ge
  totalBlocks_lt := by decide

/-- An allocation near the end of that volume never comes to its beginning: it fails with the error
of the read past the only bitmap block. -/
theorem blockAllocate_reads_past_volume :
    fullTailVolume.FreeCountExact ∧ 0 < fullTailVolume.freeBlocks ∧
    4095 ≤ fullTailVolume.totalBlocks ∧
    (∀ b < fullTailVolume.totalBlocks, oneBitmapBlock (b / 4096) = none) ∧
    (blockAllocate oneBitmapBlock fullTailVolume 4095 512 512 false).1 = .error (.ioErr 5) ∧
    ¬ AllocatesAround oneBitmapBlock fullTailVolume 4095 512 512 := by
  have fails : (blockAllocate oneBitmapBlock fullTailVolume 4095 512 512 false).1 =
      .error (.ioErr 5) := by
    decide +kernel
  refine ⟨?_, by decide, by decide, ?_, fails, ?_⟩
  · rw [Vcb.FreeCountExact]
    decide +kernel
  · intro b mem
    have onVolume : b < 4096 := mem
    have first : b / 4096 = 0 := by omega
    rw [first]
    rfl
  · rintro ⟨first, count, vcb', allocated, -⟩
    rw [allocated] at fails
    cases fails

end Call

end Darwin.Hfs
