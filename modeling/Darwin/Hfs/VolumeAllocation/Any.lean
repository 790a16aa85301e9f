import Darwin.Hfs.VolumeAllocation.Mark

/-!
# Allocating the first free blocks

The bit-at-a-time walk of `BlockAllocateAny`.  `Cursor.Stands` ties the walker's word, mask and word
count to a block number.  The second loop works on a local copy of the current word, so its
specification speaks about the bitmap with that copy written back.
-/

namespace Darwin.Hfs

open Function (update)
open Darwin.WordBitmap

section Cursor

/-- The cursor stands at the bit of `block`. -/
structure Cursor.Stands (c : Cursor) (block : ℕ) : Prop where
  buffer : c.buffer = block / 32
  wordsLeft : c.wordsLeft = 128 - block / 32 % 128
  bitMask : c.bitMask = 0x80000000#32 >>> (block % 32)

variable {io : ReadErrors} {c c' : Cursor} {block : ℕ}

private theorem highBit_eq_twoPow : (0x80000000#32) = BitVec.twoPow 32 (32 - 1) := by
  decide

/-- The mask of a block meets a word in nothing exactly when the block is free. -/
theorem and_blockMask_eq_zero (word : BitVec 32) (block : ℕ) :
    word &&& (0x80000000#32 >>> (block % 32)) = 0#32 ↔ word.getMsbD (block % 32) = false := by
  rw [highBit_eq_twoPow]
  exact and_highBit_shift_eq_zero (by decide) (Nat.mod_lt _ (by decide)) word

theorem getMsbD_blockMask (block i : ℕ) :
    (0x80000000#32 >>> (block % 32)).getMsbD i = decide (i = block % 32) := by
  rw [highBit_eq_twoPow]
  exact getMsbD_highBit_shift (by decide) (Nat.mod_lt _ (by decide)) i

private theorem highBit_shift_shift_eq_zero :
    ∀ k : ℕ, k < 32 → ((0x80000000#32 >>> k) >>> 1 = 0#32 ↔ k = 31) := by
  decide

theorem Cursor.stands_at {base : ℕ} (read : base = block / 4096 * 128) :
    (Cursor.at base block).Stands block := by
  refine ⟨?_, ?_, rfl⟩
  · unfold Cursor.at
    dsimp only
    omega
  · unfold Cursor.at
    dsimp only
    omega

variable (stands : c.Stands block)

include stands

/-- The free bit under the cursor, read from the cursor's word. -/
theorem Cursor.Stands.and_eq_zero (words : BitmapWords) :
    words c.buffer &&& c.bitMask = 0#32 ↔ bit words block = false := by
  rw [stands.bitMask, and_blockMask_eq_zero, stands.buffer, bit]

theorem Cursor.Stands.shift_eq_zero : c.bitMask >>> 1 = 0#32 ↔ block % 32 = 31 := by
  rw [stands.bitMask]
  exact highBit_shift_shift_eq_zero _ (Nat.mod_lt _ (by decide))

theorem Cursor.Stands.shift (more : ¬ c.bitMask >>> 1 = 0#32) :
    ({ c with bitMask := c.bitMask >>> 1 } : Cursor).Stands (block + 1) := by
  rw [stands.shift_eq_zero] at more
  obtain ⟨buffer, left, mask⟩ := stands
  refine ⟨by dsimp only; omega, by dsimp only; omega, ?_⟩
  have index : (block + 1) % 32 = block % 32 + 1 := by omega
  rw [index, mask, BitVec.shiftRight_add]

theorem Cursor.Stands.nextWord (last : c.bitMask >>> 1 = 0#32)
    (next : c.nextWord io (block + 1) = .ok c') : c'.Stands (block + 1) := by
  rw [stands.shift_eq_zero] at last
  have mask : 0x80000000#32 = 0x80000000#32 >>> ((block + 1) % 32) := by
    have index : (block + 1) % 32 = 0 := by omega
    rw [index]
    rfl
  obtain ⟨buffer, left, -⟩ := stands
  unfold Cursor.nextWord at next
  split_ifs at next with boundary
  · split at next
    · next base read =>
        cases next
        have first := readBitmapBlock_ok read
        exact ⟨by dsimp only; omega, by dsimp only; omega, mask⟩
    · cases next
  · cases next
    exact ⟨by dsimp only; omega, by dsimp only; omega, mask⟩

omit stands

theorem readBitmapBlock_error {e : AllocErr} (read : readBitmapBlock io block = .error e) :
    e ≠ .dskFulErr := by
  unfold readBitmapBlock at read
  split at read
  · cases read
  · cases read
    simp

theorem Cursor.nextWord_error {e : AllocErr} (next : c.nextWord io block = .error e) :
    e ≠ .dskFulErr := by
  unfold Cursor.nextWord at next
  split_ifs at next
  split at next
  · cases next
  · next read =>
      cases next
      exact readBitmapBlock_error read

end Cursor

/-! ## The two loops -/

section Loops

variable {io : ReadErrors} {words words' : BitmapWords} {left block endingBlock : ℕ}
  {currentWord : BitVec 32} {c : Cursor}

/-- The first loop stops at the first free block, or after `left` allocated ones. -/
theorem skipAllocated_spec {found : ℕ} {word : BitVec 32} {c' : Cursor}
    (stands : c.Stands block) (current : currentWord = words c.buffer)
    (skipped : skipAllocated io words left block currentWord c = .ok (found, word, c')) :
    block ≤ found ∧ found ≤ block + left ∧ c'.Stands found ∧ word = words c'.buffer ∧
      (found < block + left → bit words found = false) ∧
      ∀ b, block ≤ b → b < found → bit words b = true := by
  induction left generalizing block currentWord c with
  | zero =>
    obtain ⟨rfl, rfl, rfl⟩ := skipped
    exact ⟨le_rfl, le_rfl, stands, current, fun short => by omega, fun b _ _ => by omega⟩
  | succ left ih =>
    unfold skipAllocated at skipped
    rw [current] at skipped
    simp only [stands.and_eq_zero words] at skipped
    by_cases free : bit words block = false
    · rw [if_pos free] at skipped
      obtain ⟨rfl, rfl, rfl⟩ := skipped
      exact ⟨le_rfl, by omega, stands, rfl, fun _ => free, fun b _ _ => by omega⟩
    · rw [if_neg free] at skipped
      have advance : ∀ {word' : BitVec 32} {c'' : Cursor}, c''.Stands (block + 1) →
          word' = words c''.buffer →
          skipAllocated io words left (block + 1) word' c'' = .ok (found, word, c') →
          block ≤ found ∧ found ≤ block + (left + 1) ∧ c'.Stands found ∧ word = words c'.buffer ∧
            (found < block + (left + 1) → bit words found = false) ∧
            ∀ b, block ≤ b → b < found → bit words b = true := by
        intro word' c'' stands' current' rest
        obtain ⟨lower, upper, at_end, same, stops, passed⟩ := ih stands' current' rest
        refine ⟨by omega, by omega, at_end, same, fun short => stops (by omega), ?_⟩
        intro b low high
        rcases eq_or_lt_of_le low with rfl | above
        · exact Bool.eq_true_of_not_eq_false free
        · exact passed b above high
      split_ifs at skipped with last
      · split at skipped
        · next filled next =>
            exact advance (stands.nextWord last next) rfl skipped
        · cases skipped
      · exact advance (stands.shift last) rfl skipped

/-- Setting the bit under the cursor in the running word sets that bit of the bitmap. -/
private theorem setsRange_block (stands : c.Stands block) :
    SetsRange (update words c.buffer currentWord)
      (update words c.buffer (currentWord ||| c.bitMask)) block 1 := by
  have place : block / 32 * 32 + block % 32 = block := by omega
  have one := writesRange_update true (update words c.buffer currentWord) (block / 32)
    (block % 32) 1 (currentWord ||| c.bitMask) (by omega) fun k _ => by
      rw [BitVec.getMsbD_or, stands.bitMask, getMsbD_blockMask, ← stands.buffer,
        Function.update_self]
      by_cases same : k = block % 32
      · simp [same]
      · have outside : ¬ (block % 32 ≤ k ∧ k < block % 32 + 1) := by omega
        rw [if_neg outside]
        simp [same]
  rw [place, ← stands.buffer, Function.update_idem] at one
  exact one

/-- The second loop allocates a run of free blocks that ends at `endingBlock` or at the first
allocated block. -/
theorem allocateRun_spec {last : ℕ}
    (stands : c.Stands block) (below : block < endingBlock) (bound : endingBlock < 2 ^ 32)
    (run : allocateRun io endingBlock left block words currentWord c = (.ok last, words')) :
    let memory := update words c.buffer currentWord
    block ≤ last ∧ last ≤ endingBlock ∧ SetsRange memory words' block (last - block) ∧
      (∀ b, block ≤ b → b < last → bit memory b = false) ∧
      (last < endingBlock → bit memory last = true) := by
  induction left generalizing block words currentWord c with
  | zero => cases run
  | succ left ih =>
    have selected := stands.and_eq_zero (update words c.buffer currentWord)
    rw [Function.update_self] at selected
    unfold allocateRun at run
    by_cases free : currentWord &&& c.bitMask = 0#32
    · rw [if_neg (not_not.mpr free), Nat.mod_eq_of_lt (show block + 1 < 2 ^ 32 by omega)] at run
      have clear := selected.mp free
      have first : SetsRange (update words c.buffer currentWord)
          (update words c.buffer (currentWord ||| c.bitMask)) block 1 :=
        setsRange_block stands
      by_cases finished : block + 1 = endingBlock
      · rw [if_pos finished, Prod.mk.injEq, Except.ok.injEq] at run
        obtain ⟨rfl, rfl⟩ := run
        have count : block + 1 - block = 1 := by omega
        rw [count]
        refine ⟨by omega, by omega, first, fun b low high => ?_, fun short => by omega⟩
        obtain rfl : b = block := by omega
        exact clear
      · rw [if_neg finished] at run
        -- What remains is the run from the next block over the bitmap with this bit set.
        have advance : ∀ {words'' : BitmapWords} {word : BitVec 32} {c'' : Cursor},
            c''.Stands (block + 1) →
            update words'' c''.buffer word = update words c.buffer (currentWord ||| c.bitMask) →
            allocateRun io endingBlock left (block + 1) words'' word c'' = (.ok last, words') →
            block ≤ last ∧ last ≤ endingBlock ∧
              SetsRange (update words c.buffer currentWord) words' block (last - block) ∧
              (∀ b, block ≤ b → b < last → bit (update words c.buffer currentWord) b = false) ∧
              (last < endingBlock →
                bit (update words c.buffer currentWord) last = true) := by
          intro words'' word c'' stands' same rest
          obtain ⟨lower, upper, sets, cleared, stops⟩ := ih stands' (by omega) rest
          rw [same] at sets cleared stops
          have count : last - block = 1 + (last - (block + 1)) := by omega
          refine ⟨by omega, upper, ?_, fun b low high => ?_, fun short => ?_⟩
          · rw [count]
            exact first.trans sets
          · rcases eq_or_lt_of_le low with rfl | above
            · exact clear
            · rw [← first.bit_of_notMem (by omega)]
              exact cleared b above high
          · rw [← first.bit_of_notMem (by omega)]
            exact stops short
        split_ifs at run with wordEnd
        · split at run
          · next filled next =>
              exact advance (stands.nextWord wordEnd next) (Function.update_eq_self _ _) run
          · cases run
        · exact advance (stands.shift wordEnd) rfl run
    · rw [if_pos free, Prod.mk.injEq, Except.ok.injEq] at run
      obtain ⟨rfl, rfl⟩ := run
      rw [Nat.sub_self]
      refine ⟨le_rfl, le_of_lt below, WritesRange.refl _ _ _, fun b _ _ => by omega, fun _ => ?_⟩
      exact Bool.eq_true_of_not_eq_false fun clear => free (selected.mpr clear)

theorem allocateRun_error {e : AllocErr}
    (run : allocateRun io endingBlock left block words currentWord c = (.error e, words')) :
    e ≠ .dskFulErr := by
  induction left generalizing block words currentWord c with
  | zero =>
    cases (Prod.mk.inj run).1
    simp
  | succ left ih =>
    unfold allocateRun at run
    dsimp only at run
    split_ifs at run
    · cases run
    · cases run
    · split at run
      · exact ih run
      · next next =>
          cases (Prod.mk.inj run).1
          exact Cursor.nextWord_error next
    · exact ih run

end Loops

/-! ## The routine -/

section Routine

variable {io : ReadErrors} {words words' : BitmapWords}
  {startingBlock endingBlock maxBlocks start count : ℕ}

/-- What an allocation reports: a free range inside `[low, high)` that is now allocated. -/
structure Allocated (words words' : BitmapWords) (low high start count : ℕ) : Prop where
  lower : low ≤ start
  upper : start + count ≤ high
  nonempty : 1 ≤ count
  wasFree : ∀ b, start ≤ b → b < start + count → bit words b = false
  sets : SetsRange words words' start count

/-- A successful `BlockAllocateAny` allocates between one and `maxBlocks` blocks of its range. -/
theorem blockAllocateAny_spec (order : startingBlock ≤ endingBlock) (bound : endingBlock < 2 ^ 32)
    (positive : 0 < maxBlocks)
    (allocated : blockAllocateAny io words startingBlock endingBlock maxBlocks =
      (.ok (start, count), words')) :
    Allocated words words' startingBlock endingBlock start count ∧ count ≤ maxBlocks := by
  unfold blockAllocateAny at allocated
  have range : (endingBlock + 2 ^ 32 - startingBlock) % 2 ^ 32 = endingBlock - startingBlock := by
    omega
  simp only [range] at allocated
  generalize maxEq : (if maxBlocks > endingBlock - startingBlock then endingBlock - startingBlock
    else maxBlocks) = limit at allocated
  split at allocated
  · cases allocated
  next base read =>
  split at allocated
  · cases allocated
  next block word c skipped =>
  obtain ⟨lower, upper, stands, rfl, free, -⟩ :=
    skipAllocated_spec (Cursor.stands_at (readBitmapBlock_ok read)) rfl skipped
  by_cases full : block = endingBlock
  · rw [if_pos full] at allocated
    cases allocated
  rw [if_neg full] at allocated
  have limitLe : limit ≤ maxBlocks ∧ 0 < limit ∧ limit ≤ endingBlock - startingBlock := by
    split_ifs at maxEq <;> omega
  generalize stopEq : (if block < (endingBlock + 2 ^ 32 - limit) % 2 ^ 32
    then (block + limit) % 2 ^ 32 else endingBlock) = stop at allocated
  have stopLe : block < stop ∧ stop ≤ endingBlock ∧ stop ≤ block + limit := by
    have wrap : (endingBlock + 2 ^ 32 - limit) % 2 ^ 32 = endingBlock - limit := by omega
    rw [wrap] at stopEq
    split_ifs at stopEq <;> omega
  split at allocated
  swap
  · cases allocated
  next last words'' run =>
  simp only [Prod.mk.injEq, Except.ok.injEq] at allocated
  obtain ⟨⟨rfl, rfl⟩, rfl⟩ := allocated
  have clear : bit words block = false := free (by omega)
  obtain ⟨first, final, sets, cleared, stops⟩ :=
    allocateRun_spec stands stopLe.1 (by omega) run
  rw [Function.update_eq_self] at sets cleared stops
  have advanced : block ≠ last := by
    rintro rfl
    rw [stops stopLe.1] at clear
    cases clear
  have count : (last + 2 ^ 32 - block) % 2 ^ 32 = last - block := by omega
  rw [count]
  exact ⟨⟨lower, by omega, by omega, fun b low high => cleared b low (by omega), sets⟩, by omega⟩

/-- A full range leaves the bitmap untouched. -/
theorem blockAllocateAny_dskFulErr
    (full : (blockAllocateAny io words startingBlock endingBlock maxBlocks).1 = .error .dskFulErr) :
    (blockAllocateAny io words startingBlock endingBlock maxBlocks).2 = words := by
  unfold blockAllocateAny at full ⊢
  dsimp only at full ⊢
  split
  · rfl
  next base read =>
  rw [read] at full
  dsimp only at full
  split
  · rfl
  next block word c skipped =>
  rw [skipped] at full
  dsimp only at full
  split_ifs at full ⊢
  · rfl
  all_goals
    split at full
    · cases full
    · next run =>
        exact absurd (Except.error.inj full) (allocateRun_error run)

end Routine

end Darwin.Hfs
