import Darwin.Hfs.VolumeAllocation.Basic

/-!
# Marking and counting ranges of blocks

The word-at-a-time walkers of the allocator.  `MarkCursor.At` says which block a marking routine has
reached; the three parts of `blockMark` (first partial word, whole words, last partial word) each
write one range of the bitmap, and the ranges compose.

## Main results

* `blockMarkAllocated_spec`, `blockMarkFree_spec`: a marking call that succeeds writes exactly its
  range.
* `updateFreeCount_spec`: a recount that can read the bitmap stores the number of clear bits.
-/

namespace Darwin.Hfs

open Darwin.WordBitmap

section Cursor

/-- The cursor stands at the word that holds `block` in its first bit, or has used up the bitmap
block before it. -/
def MarkCursor.At (c : MarkCursor) (block : ℕ) : Prop :=
  (c.wordsLeft ≠ 0 ∧ c.currentWord = block / 32 ∧ c.wordsLeft = 128 - block / 32 % 128 ∧
      c.startingBlock / 4096 = block / 4096) ∨
    (c.wordsLeft = 0 ∧ block % 4096 = 0 ∧ block / 4096 = c.startingBlock / 4096 + 1)

variable {io : ReadErrors} {c c' : MarkCursor} {block : ℕ}

theorem readBitmapBlock_ok {base : ℕ} (read : readBitmapBlock io block = .ok base) :
    base = block / 4096 * 128 := by
  unfold readBitmapBlock at read
  split at read
  · exact (Except.ok.inj read).symm
  · cases read

private theorem startingBlock_add_div (next : block / 4096 = c.startingBlock / 4096 + 1)
    (bound : block < 2 ^ 32) : (c.startingBlock + 4096) % 2 ^ 32 / 4096 = block / 4096 := by
  have small : c.startingBlock + 4096 < 2 ^ 32 := by omega
  rw [Nat.mod_eq_of_lt small]
  omega

/-- After a refill the cursor stands at a word in memory. -/
theorem MarkCursor.At.refill (stands : c.At block) (bound : block < 2 ^ 32)
    (filled : c.refill io = .ok c') :
    c'.At block ∧ c'.wordsLeft ≠ 0 ∧ c'.currentWord = block / 32 := by
  unfold MarkCursor.refill at filled
  rcases stands with ⟨left, word, count, sector⟩ | ⟨empty, boundary, next⟩
  · rw [if_neg left] at filled
    cases filled
    exact ⟨.inl ⟨left, word, count, sector⟩, left, word⟩
  rw [if_pos empty] at filled
  dsimp only at filled
  split at filled
  · next base read =>
      obtain rfl := Except.ok.inj filled
      have sector := startingBlock_add_div next bound
      have first := readBitmapBlock_ok read
      rw [sector] at first
      have word : base = block / 32 := by omega
      exact ⟨.inl ⟨by simp, word, by dsimp only; omega, sector⟩, by simp, word⟩
  · cases filled

/-- A bitmap block that can be read never stops a refill. -/
theorem MarkCursor.At.refill_ok (stands : c.At block) (bound : block < 2 ^ 32)
    (readable : io (block / 4096) = none) : ∃ c', c.refill io = .ok c' := by
  unfold MarkCursor.refill
  rcases stands with ⟨left, -, -, -⟩ | ⟨empty, -, next⟩
  · exact ⟨c, if_neg left⟩
  · rw [if_pos empty]
    simp only [readBitmapBlock, startingBlock_add_div next bound, readable]
    exact ⟨_, rfl⟩

theorem MarkCursor.At.advance (stands : c.At block) (left : c.wordsLeft ≠ 0)
    (aligned : block % 32 = 0) : c.advance.At (block + 32) := by
  rcases stands with ⟨-, word, count, sector⟩ | ⟨empty, -, -⟩
  · unfold MarkCursor.advance MarkCursor.At
    dsimp only
    by_cases last : c.wordsLeft = 1
    · right
      omega
    · left
      omega
  · exact absurd empty left

end Cursor

/-! ## The marking routines -/

section Mark

variable {io : ReadErrors} {value : Bool} {part : BitVec 32 → BitVec 32 → BitVec 32}
  {whole : BitVec 32}

private theorem getMsbD_allOnes_shift (k i : ℕ) (mem : i < 32) :
    (0xFFFFFFFF#32 >>> k).getMsbD i = decide (k ≤ i) := by
  have ones : (0xFFFFFFFF#32) = BitVec.allOnes 32 := by decide
  rw [ones, BitVec.getMsbD_eq_getLsbD, BitVec.getLsbD_ushiftRight, BitVec.getLsbD_allOnes]
  by_cases later : k ≤ i
  · simp [mem, later]
    omega
  · simp [later]
    omega

private theorem getMsbD_lastMask (k i : ℕ) (mem : i < 32) :
    (~~~(0xFFFFFFFF#32 >>> k)).getMsbD i = decide (i < k) := by
  rw [BitVec.getMsbD_not, getMsbD_allOnes_shift k i mem]
  by_cases later : k ≤ i
  · simp [later]
  · simp [later, mem]
    omega

variable {numBlocks startingBlock : ℕ} {words words' : BitmapWords}

private theorem getMsbD_firstWordMask {firstBit : ℕ} (word : firstBit < 32) (i : ℕ)
    (mem : i < 32) :
    (firstWordMask firstBit numBlocks).1.getMsbD i =
      decide (firstBit ≤ i ∧ i < firstBit + (firstWordMask firstBit numBlocks).2) := by
  unfold firstWordMask
  dsimp only
  split_ifs with short
  · rw [BitVec.getMsbD_and, getMsbD_lastMask _ _ mem, getMsbD_allOnes_shift _ _ mem]
    by_cases lower : firstBit ≤ i <;> simp [lower]
  rw [getMsbD_allOnes_shift _ _ mem]
  congr 1
  simp only [eq_iff_iff]
  omega

private theorem firstWordMask_count (firstBit numBlocks : ℕ) :
    (firstWordMask firstBit numBlocks).2 = min numBlocks (32 - firstBit) := by
  unfold firstWordMask
  dsimp only
  split_ifs with short
  · exact (min_eq_left (le_of_lt short)).symm
  · exact (min_eq_right (not_lt.mp short)).symm

/-- The loop over whole words writes them all. -/
theorem markWords_spec (wholeValue : ∀ i < 32, whole.getMsbD i = value)
    {wholeWords : ℕ} {c c' : MarkCursor} {block : ℕ}
    (aligned : block % 32 = 0) (stands : c.At block)
    (bound : block + 32 * wholeWords ≤ 2 ^ 32)
    (marked : markWords io whole wholeWords words c = (.ok c', words')) :
    c'.At (block + 32 * wholeWords) ∧
      WritesRange value words words' block (32 * wholeWords) := by
  induction wholeWords generalizing words c block with
  | zero =>
    obtain ⟨rfl, rfl⟩ := marked
    exact ⟨stands, WritesRange.refl _ _ _⟩
  | succ wholeWords ih =>
    unfold markWords at marked
    split at marked
    · next filled refill =>
        obtain ⟨stands', left, word⟩ := stands.refill (by omega) refill
        obtain ⟨at_end, rest⟩ := @ih (Function.update words filled.currentWord whole) filled.advance (block + 32)
          (by omega)
          (stands'.advance left aligned) (by omega) marked
        have start : block / 32 * 32 + 0 = block := by omega
        have first : WritesRange value words
            (Function.update words filled.currentWord whole) block 32 := by
          rw [word]
          have one := writesRange_update value words (block / 32) 0 32 whole (by decide)
            fun k mem => by
              rw [if_pos ⟨Nat.zero_le k, by omega⟩, wholeValue k mem]
          rwa [start] at one
        have total : 32 * (wholeWords + 1) = 32 + 32 * wholeWords := by omega
        rw [total, ← add_assoc]
        exact ⟨at_end, first.trans rest⟩
    · cases marked

variable (partValue : ∀ x m i, (part x m).getMsbD i = if m.getMsbD i then value else x.getMsbD i)

include partValue

/-- A partial word written through a mask of `[low, low + count)`. -/
private theorem writesRange_part
    (words : BitmapWords) (i low count : ℕ) (mask : BitVec 32) (fits : low + count ≤ 32)
    (selects : ∀ k < 32, mask.getMsbD k = decide (low ≤ k ∧ k < low + count)) :
    WritesRange value words (Function.update words i (part (words i) mask))
      (i * 32 + low) count := by
  refine writesRange_update value words i low count _ fits fun k mem => ?_
  simp only [partValue, selects k mem, decide_eq_true_eq]

/-- A marking call that succeeds writes exactly its range. -/
theorem blockMark_spec (wholeValue : ∀ i < 32, whole.getMsbD i = value)
    (bound : startingBlock + numBlocks ≤ 2 ^ 32)
    (marked : blockMark part whole io words startingBlock numBlocks = (.ok (), words')) :
    WritesRange value words words' startingBlock numBlocks := by
  unfold blockMark at marked
  split at marked
  · cases marked
  next base read =>
  have baseEq := readBitmapBlock_ok read
  dsimp only at marked
  generalize startEq : (if startingBlock % 32 ≠ 0 then _ else _ :
    BitmapWords × ℕ × MarkCursor) = start at marked
  -- The first word: what is left to mark starts on a word boundary, or nothing is left.
  have firstPart : ∃ count ≤ numBlocks, start.2.1 = numBlocks - count ∧
      WritesRange value words start.1 startingBlock count ∧
      (start.2.1 ≠ 0 → (startingBlock + count) % 32 = 0 ∧
        start.2.2.At (startingBlock + count)) := by
    have mem : startingBlock % 32 < 32 := Nat.mod_lt _ (by decide)
    by_cases unaligned : startingBlock % 32 ≠ 0
    · rw [if_pos unaligned] at startEq
      subst startEq
      have count := firstWordMask_count (startingBlock % 32) numBlocks
      refine ⟨(firstWordMask (startingBlock % 32) numBlocks).2, ?_, rfl, ?_, fun more => ?_⟩
      · rw [count]
        exact min_le_left _ _
      · have word : base + startingBlock % 4096 / 32 = startingBlock / 32 := by omega
        have place : startingBlock / 32 * 32 + startingBlock % 32 = startingBlock := by omega
        have one := writesRange_part partValue words (startingBlock / 32)
          (startingBlock % 32) _ (firstWordMask (startingBlock % 32) numBlocks).1
          (show startingBlock % 32 + (firstWordMask (startingBlock % 32) numBlocks).2 ≤ 32 by
            rw [count]; omega)
          fun k small => getMsbD_firstWordMask mem k small
        rw [place] at one
        rw [word]
        exact one
      · dsimp only at more
        have full : (firstWordMask (startingBlock % 32) numBlocks).2 = 32 - startingBlock % 32 := by
          rw [count] at more ⊢
          omega
        rw [full]
        refine ⟨by omega, ?_⟩
        unfold MarkCursor.advance MarkCursor.At
        dsimp only
        by_cases last : startingBlock % 4096 / 32 = 127
        · right
          omega
        · left
          omega
    · rw [if_neg unaligned] at startEq
      subst startEq
      refine ⟨0, Nat.zero_le _, rfl, WritesRange.refl _ _ _, fun _ => ⟨by omega, ?_⟩⟩
      left
      dsimp only
      omega
  obtain ⟨count, countLe, left, firstWrites, more⟩ := firstPart
  split at marked
  · cases marked
  next c middle wholeMarked =>
  by_cases none : start.2.1 = 0
  · -- The whole range was inside the first word.
    rw [none] at wholeMarked marked left
    simp only [Nat.zero_div, markWords, Prod.mk.injEq, Except.ok.injEq] at wholeMarked
    simp only [Nat.zero_mod, ne_eq, not_true_eq_false, if_false, Prod.mk.injEq, true_and] at marked
    have all : count = numBlocks := by omega
    rw [← marked, ← wholeMarked.2, ← all]
    exact firstWrites
  obtain ⟨aligned, stands⟩ := more none
  obtain ⟨standsEnd, wholeWrites⟩ := markWords_spec wholeValue aligned stands (by omega) wholeMarked
  have firstTwo := firstWrites.trans wholeWrites
  split_ifs at marked with partial_
  · split at marked
    · cases marked
    next last refill =>
    obtain ⟨-, -, word⟩ := standsEnd.refill (by omega) refill
    obtain rfl := (Prod.mk.inj marked).2
    have place : (startingBlock + count + 32 * (start.2.1 / 32)) / 32 * 32 + 0 =
        startingBlock + (count + 32 * (start.2.1 / 32)) := by omega
    have rest := writesRange_part partValue middle last.currentWord 0 (start.2.1 % 32)
      (~~~(0xFFFFFFFF#32 >>> (start.2.1 % 32))) (by omega) fun k small => by
        rw [getMsbD_lastMask _ k small, zero_add]
        simp only [zero_le, true_and]
    rw [word, place] at rest
    have total : count + 32 * (start.2.1 / 32) + start.2.1 % 32 = numBlocks := by omega
    rw [word, ← total]
    exact firstTwo.trans rest
  · obtain rfl := (Prod.mk.inj marked).2
    have total : count + 32 * (start.2.1 / 32) = numBlocks := by omega
    rw [← total]
    exact firstTwo

omit partValue

/-- `BlockMarkAllocated` sets exactly the bits of its range. -/
theorem blockMarkAllocated_spec (bound : startingBlock + numBlocks ≤ 2 ^ 32)
    (marked : blockMarkAllocated io words startingBlock numBlocks = (.ok (), words')) :
    SetsRange words words' startingBlock numBlocks := by
  refine blockMark_spec (fun x m i => ?_) (by decide) bound marked
  rw [BitVec.getMsbD_or]
  cases m.getMsbD i <;> simp

/-- `BlockMarkFree` clears exactly the bits of its range. -/
theorem blockMarkFree_spec (bound : startingBlock + numBlocks ≤ 2 ^ 32)
    (marked : blockMarkFree io words startingBlock numBlocks = (.ok (), words')) :
    ClearsRange words words' startingBlock numBlocks := by
  refine blockMark_spec (fun x m i => ?_) (by decide) bound marked
  rw [BitVec.getMsbD_and, BitVec.getMsbD_not]
  by_cases mem : i < 32
  · cases m.getMsbD i <;> simp [mem]
  · simp [BitVec.getMsbD_of_ge _ _ (not_lt.mp mem)]

end Mark

/-! ## The free count -/

section Count

theorem countSetBits_eq (temp : BitVec 32) : countSetBits temp = (ones temp).card := by
  induction temp using countSetBits.induct with
  | case1 temp nonzero ih =>
    rw [countSetBits, dif_pos nonzero, ih, ← card_ones_and_sub_one nonzero]
  | case2 temp zero =>
    have none : ones temp = ∅ := by
      ext i
      simp [not_not.mp zero]
    rw [countSetBits, dif_neg zero, none, Finset.card_empty]

private theorem and_highBit_ne_zero (temp : BitVec 32) :
    temp &&& 0x80000000#32 ≠ 0#32 ↔ temp.getMsbD 0 = true := by
  have mask : (0x80000000#32) = BitVec.twoPow 32 (32 - 1) >>> 0 := by decide
  rw [mask, ne_eq, and_highBit_shift_eq_zero (by decide) (by decide), Bool.not_eq_false]

theorem countHighBits_eq {numBlocks : ℕ} (temp : BitVec 32) (mem : numBlocks ≤ 32) :
    countHighBits numBlocks temp =
      {i ∈ Finset.range numBlocks | temp.getMsbD i = true}.card := by
  induction numBlocks generalizing temp with
  | zero => rfl
  | succ numBlocks ih =>
    rw [countHighBits, ih _ (by omega), card_filter_shiftLeft _ _ (by omega)]
    simp only [and_highBit_ne_zero]

variable {io : ReadErrors}

/-- The loop over whole words adds their clear bits to the running count. -/
theorem countFreeWords_spec (words : BitmapWords) {wholeWords q : ℕ} {c : MarkCursor}
    (stands : c.At (q * 32))
    (bound : (q + wholeWords) * 32 < 2 ^ 32)
    (readable : ∀ block < (q + wholeWords) * 32, io (block / 4096) = none) :
    ∃ c', countFreeWords io words wholeWords c (clearCount words (q * 32)) =
        .ok (c', clearCount words ((q + wholeWords) * 32)) ∧ c'.At ((q + wholeWords) * 32) := by
  induction wholeWords generalizing c q with
  | zero => exact ⟨c, rfl, stands⟩
  | succ wholeWords ih =>
    obtain ⟨filled, refill⟩ := stands.refill_ok (by omega) (readable (q * 32) (by omega))
    obtain ⟨stands', left, word⟩ := stands.refill (by omega) refill
    have next := stands'.advance left (by omega)
    have count : clearCount words (q * 32) + countSetBits (~~~(words filled.currentWord)) =
        clearCount words ((q + 1) * 32) := by
      have whole := clearCount_word words q 32 le_rfl
      have index : q * 32 / 32 = q := by omega
      rw [word, index, countSetBits_eq, ones, add_mul, one_mul, whole]
    have small : clearCount words ((q + 1) * 32) < 2 ^ 32 :=
      lt_of_le_of_lt (clearCount_le _ _) (by omega)
    have total : q + (wholeWords + 1) = q + 1 + wholeWords := by omega
    rw [countFreeWords, refill]
    dsimp only
    rw [count, Nat.mod_eq_of_lt small, total]
    have place : q * 32 + 32 = (q + 1) * 32 := by omega
    rw [place] at next
    exact ih next (by omega) fun block below => readable block (by omega)

/-- A recount that can read the bitmap stores the number of clear bits of the volume. -/
theorem updateFreeCount_spec (vcb : Vcb) (first : io 0 = none)
    (readable : ∀ block < vcb.totalBlocks, io (block / 4096) = none) :
    updateFreeCount io vcb = (.ok (), updateVCBFreeBlks { vcb with
      freeBlocks := clearCount vcb.bitmap vcb.totalBlocks }) := by
  have bound := vcb.totalBlocks_lt
  have start : MarkCursor.At ⟨0, 0, 128⟩ (0 * 32) := .inl ⟨by simp, by simp, by simp, by simp⟩
  obtain ⟨c, counted, stands⟩ := countFreeWords_spec vcb.bitmap start
    (show (0 + vcb.totalBlocks / 32) * 32 < 2 ^ 32 by omega)
    fun block below => readable block (by omega)
  rw [zero_add] at counted stands
  have origin : readBitmapBlock io 0 = .ok 0 := by
    simp [readBitmapBlock, first]
  unfold updateFreeCount
  rw [origin]
  dsimp only
  rw [zero_mul, clearCount_zero] at counted
  rw [counted]
  dsimp only
  split_ifs with rest
  · obtain ⟨filled, refill⟩ := stands.refill_ok (by omega)
      (readable (vcb.totalBlocks / 32 * 32) (by omega))
    obtain ⟨-, -, word⟩ := stands.refill (by omega) refill
    have index : vcb.totalBlocks / 32 * 32 / 32 = vcb.totalBlocks / 32 := by omega
    have tail := clearCount_word vcb.bitmap (vcb.totalBlocks / 32) (vcb.totalBlocks % 32) (by omega)
    have place : vcb.totalBlocks / 32 * 32 + vcb.totalBlocks % 32 = vcb.totalBlocks := by omega
    rw [place] at tail
    have small : clearCount vcb.bitmap vcb.totalBlocks < 2 ^ 32 :=
      lt_of_le_of_lt (clearCount_le _ _) bound
    rw [refill]
    dsimp only
    rw [word, index, countHighBits_eq _ (by omega), ← tail, Nat.mod_eq_of_lt small]
  · have place : vcb.totalBlocks / 32 * 32 = vcb.totalBlocks := by omega
    rw [place]

end Count

end Darwin.Hfs
