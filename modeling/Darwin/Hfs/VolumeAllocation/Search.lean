import Darwin.Hfs.VolumeAllocation.Any

/-!
# The walk of a contiguous search

`BlockFindContiguous` looks at `minBlocks` candidate blocks from the last to the first.  An allocated
block moves the candidates up; the free blocks above it stay counted.  `Search.Sound` is the part of
the loop invariant that carries the result: with `lastBlock` the highest candidate, the blocks counted
so far are free, and the candidates end `minBlocks` above the first counted block.  `Search.Live` and
`Search.Passed` say where the walker stands; the second is the state after block zero, where
`currentBlock` has wrapped and the walker reads whatever lies before the bitmap.
-/

namespace Darwin.Hfs

open Darwin.WordBitmap Search

section Invariant

variable {words : BitmapWords} {low endingBlock minBlocks lastBlock : ℕ} {s : Search}

/-- The blocks counted by a search are free and end at the last candidate. -/
structure Search.Sound (words : BitmapWords) (low endingBlock minBlocks lastBlock : ℕ)
    (s : Search) : Prop where
  above : low + s.countedFreeBlocks ≤ s.stopBlock
  candidates : lastBlock + 1 + s.countedFreeBlocks = s.stopBlock + minBlocks
  below : lastBlock < endingBlock
  loaded : s.buffer = s.currentSector * 128
  small : s.freeBlocks + s.countedFreeBlocks ≤ minBlocks + 64
  free : ∀ b, b ≤ lastBlock → lastBlock < b + s.freeBlocks → bit words b = false
  counted : ∀ b, b < s.stopBlock → s.stopBlock ≤ b + s.countedFreeBlocks → bit words b = false

/-- The walker stands at the bit of `currentBlock`. -/
structure Search.Live (words : BitmapWords) (lastBlock : ℕ) (s : Search) : Prop where
  position : s.currentBlock + s.freeBlocks = lastBlock
  word : s.currentWord = s.currentBlock / 32
  wordsLeft : s.wordsLeft = s.currentBlock / 32 % 128
  sector : s.currentSector = s.currentBlock / 4096
  temp : s.tempWord = words (s.currentBlock / 32)
  mask : s.bitMask = 0x80000000#32 >>> (s.currentBlock % 32)

/-- The walker has passed block zero with every candidate free, and a set bit of the word it reads
will stop it. -/
structure Search.Passed (lastBlock k : ℕ) (s : Search) : Prop where
  stop : s.stopBlock = 0
  passed : lastBlock < s.freeBlocks
  inside : k < 32
  mask : s.bitMask = 0x80000000#32 >>> k
  marked : ∃ j ≤ k, s.tempWord.getMsbD j = true
  few : s.freeBlocks + k ≤ lastBlock + 32

/-- The walker is about to read the word before the one it stands at. -/
structure Search.BeforeWord (lastBlock : ℕ) (s : Search) : Prop where
  position : s.currentBlock + s.freeBlocks = lastBlock
  aligned : (s.currentBlock + 1) % 32 = 0
  word : s.currentWord = (s.currentBlock + 1) / 32
  wordsLeft : s.wordsLeft = (s.currentBlock + 1) / 32 % 128
  sector : s.currentSector = (s.currentBlock + 1) / 4096

/-- The walker is about to read before the first word of the bitmap. -/
structure Search.BeforeBitmap (lastBlock : ℕ) (s : Search) : Prop where
  stop : s.stopBlock = 0
  all : s.freeBlocks = lastBlock + 1
  wordsLeft : s.wordsLeft = 0

/-- A sound search that has found enough has a free range below its last candidate. -/
theorem Search.Sound.range (sound : s.Sound words low endingBlock minBlocks lastBlock)
    (enough : minBlocks ≤ s.freeBlocks + s.countedFreeBlocks) :
    ∀ b, s.stopBlock - s.countedFreeBlocks ≤ b →
      b < s.stopBlock - s.countedFreeBlocks + minBlocks → bit words b = false := by
  intro b lower upper
  obtain ⟨above, candidates, -, -, -, free, counted⟩ := sound
  by_cases early : b < s.stopBlock
  · exact counted b early (by omega)
  · exact free b (by omega) (by omega)

theorem Search.found_eq (fits : s.freeBlocks + s.countedFreeBlocks < 2 ^ 32) :
    s.found = s.freeBlocks + s.countedFreeBlocks :=
  Nat.mod_eq_of_lt fits

variable (sound : s.Sound words low endingBlock minBlocks lastBlock)

include sound

/-- Soundness does not depend on where the walker stands. -/
theorem Search.Sound.congr {t : Search}
    (stop : t.stopBlock = s.stopBlock) (free : t.freeBlocks = s.freeBlocks)
    (counted : t.countedFreeBlocks = s.countedFreeBlocks)
    (loaded : t.buffer = t.currentSector * 128) :
    t.Sound words low endingBlock minBlocks lastBlock := by
  refine ⟨?_, ?_, sound.below, loaded, ?_, ?_, ?_⟩
  · rw [stop, counted]
    exact sound.above
  · rw [stop, counted]
    exact sound.candidates
  · rw [free, counted]
    exact sound.small
  · rw [free]
    exact sound.free
  · rw [stop, counted]
    exact sound.counted

/-- A walker that has passed block zero has found enough. -/
theorem Search.Sound.enough_of_stop
    (stop : s.stopBlock = 0) (passed : lastBlock < s.freeBlocks) :
    minBlocks ≤ s.freeBlocks + s.countedFreeBlocks := by
  have candidates := sound.candidates
  omega

end Invariant

/-! ## Whole words of free blocks -/

section NextWord

variable {io : ReadErrors} {words : BitmapWords} {low endingBlock minBlocks lastBlock : ℕ}
  {s s' : Search}

private theorem bit_of_word_eq_zero {q : ℕ} (zero : words q = 0#32) {b : ℕ}
    (lower : q * 32 ≤ b) (upper : b < q * 32 + 32) : bit words b = false := by
  have index : b / 32 = q := by omega
  rw [bit, index, zero, BitVec.getMsbD_zero]

private theorem exists_getMsbD {x : BitVec 32} (nonzero : x ≠ 0#32) :
    ∃ j ≤ 31, x.getMsbD j = true := by
  by_contra none
  apply nonzero
  apply BitVec.eq_of_getMsbD_eq
  intro i mem
  rw [BitVec.getMsbD_zero]
  by_contra set
  exact none ⟨i, by omega, by simpa using set⟩

/-- The search after a step to the word of `currentBlock`. -/
def Search.atWord (words : BitmapWords) (s : Search) : Search :=
  { s with
    buffer := s.currentBlock / 4096 * 128
    currentSector := s.currentBlock / 4096
    currentWord := s.currentBlock / 32
    wordsLeft := s.currentBlock / 32 % 128
    tempWord := words (s.currentBlock / 32) }

@[simp] theorem Search.atWord_stopBlock (words : BitmapWords) (s : Search) :
    (s.atWord words).stopBlock = s.stopBlock := by
  rw [atWord]

@[simp] theorem Search.atWord_freeBlocks (words : BitmapWords) (s : Search) :
    (s.atWord words).freeBlocks = s.freeBlocks := by
  rw [atWord]

@[simp] theorem Search.atWord_countedFreeBlocks (words : BitmapWords) (s : Search) :
    (s.atWord words).countedFreeBlocks = s.countedFreeBlocks := by
  rw [atWord]

@[simp] theorem Search.atWord_currentBlock (words : BitmapWords) (s : Search) :
    (s.atWord words).currentBlock = s.currentBlock := by
  rw [atWord]

theorem Search.previousWord_of_beforeWord (before : s.BeforeWord lastBlock)
    (loaded : s.buffer = s.currentSector * 128) :
    s.previousWord io words = .ok (s.atWord words) ∨
      io (s.currentBlock / 4096) ≠ none ∧ ∃ e, s.previousWord io words = .error e := by
  obtain ⟨-, aligned, word, left, sector⟩ := before
  unfold previousWord
  split_ifs with more
  · left
    have index : s.currentWord - 1 = s.currentBlock / 32 := by omega
    have count : s.wordsLeft - 1 = s.currentBlock / 32 % 128 := by omega
    have same : s.currentSector = s.currentBlock / 4096 := by omega
    rw [index, count, atWord, ← same, ← loaded]
  · cases read : io (s.currentBlock / 4096) with
    | none =>
      left
      have index : s.currentBlock / 4096 * 128 + 127 = s.currentBlock / 32 := by omega
      have count : 127 = s.currentBlock / 32 % 128 := by omega
      rw [readBitmapBlock, read, atWord]
      dsimp only
      rw [index, ← count]
    | some code =>
      right
      rw [readBitmapBlock, read]
      exact ⟨Option.some_ne_none code, _, rfl⟩

theorem Search.previousWord_of_beforeBitmap (before : s.BeforeBitmap lastBlock) :
    (∃ word, s.previousWord io words = .ok { s with
      buffer := s.currentBlock / 4096 * 128, currentSector := s.currentBlock / 4096
      currentWord := word, wordsLeft := 127, tempWord := words word }) ∨
      io (s.currentBlock / 4096) ≠ none ∧ ∃ e, s.previousWord io words = .error e := by
  unfold previousWord
  rw [if_neg (not_not.mpr before.wordsLeft)]
  cases read : io (s.currentBlock / 4096) with
  | none =>
    left
    rw [readBitmapBlock, read]
    exact ⟨_, rfl⟩
  | some code =>
    right
    rw [readBitmapBlock, read]
    exact ⟨Option.some_ne_none code, _, rfl⟩

/-- What the loop over whole words leaves behind: enough blocks, or a walker that stands at a word
with an allocated block. -/
structure Search.Skipped (words : BitmapWords) (low endingBlock minBlocks lastBlock : ℕ)
    (s s' : Search) (enough : Bool) : Prop where
  sound : s'.Sound words low endingBlock minBlocks lastBlock
  stopBlock : s'.stopBlock = s.stopBlock
  countedFreeBlocks : s'.countedFreeBlocks = s.countedFreeBlocks
  fits : s'.freeBlocks + s'.countedFreeBlocks < 2 ^ 32
  aligned : (lastBlock + 1 - s'.freeBlocks) % 32 = 0
  filled : enough = true →
    minBlocks ≤ s'.freeBlocks + s'.countedFreeBlocks ∧ s.freeBlocks + 32 ≤ s'.freeBlocks
  stopped : enough = false → s'.Live words lastBlock ∧
    s'.freeBlocks + s'.countedFreeBlocks ≤ minBlocks ∧ s'.currentBlock ≤ s.currentBlock ∧
    ∃ b ≤ s'.currentBlock, b / 32 = s'.currentBlock / 32 ∧ bit words b = true

/-- A word with an allocated block stops the walk at its last block. -/
private theorem skipped_of_ne (sound : s.Sound words low endingBlock minBlocks lastBlock)
    (few : s.freeBlocks + s.countedFreeBlocks ≤ minBlocks)
    (fits : s.freeBlocks + s.countedFreeBlocks < 2 ^ 32) (mask : s.bitMask = 1#32)
    (before : s.BeforeWord lastBlock) (nonzero : words (s.currentBlock / 32) ≠ 0#32) :
    Skipped words low endingBlock minBlocks lastBlock s (s.atWord words) false := by
  have lowBit : 1#32 = 0x80000000#32 >>> 31 := by decide
  obtain ⟨position, aligned, -, -, -⟩ := before
  obtain ⟨j, le, set⟩ := exists_getMsbD nonzero
  have index : (s.currentBlock / 32 * 32 + j) / 32 = s.currentBlock / 32 := by omega
  have offset : (s.currentBlock / 32 * 32 + j) % 32 = j := by omega
  refine ⟨sound.congr rfl rfl rfl rfl, rfl, rfl, fits, ?_, by simp, fun _ => ?_⟩
  · rw [atWord]
    dsimp only
    omega
  refine ⟨⟨position, rfl, rfl, rfl, rfl, ?_⟩, few, le_rfl, s.currentBlock / 32 * 32 + j, ?_, index,
    ?_⟩
  · have last : s.currentBlock % 32 = 31 := by omega
    rw [atWord]
    rw [last, mask, lowBit]
  · rw [atWord]
    dsimp only
    omega
  · rw [bit, index, offset]
    exact set

/-- A free word under the walker joins the range. -/
theorem Search.Sound.countWord (bound : endingBlock < 2 ^ 32)
    (sound : s.Sound words low endingBlock minBlocks lastBlock)
    (few : s.freeBlocks + s.countedFreeBlocks ≤ minBlocks) (before : s.BeforeWord lastBlock)
    (zero : words (s.currentBlock / 32) = 0#32) :
    (s.atWord words).countWord.freeBlocks = s.freeBlocks + 32 ∧
      (s.atWord words).countWord.Sound words low endingBlock minBlocks lastBlock := by
  obtain ⟨position, aligned, -, -, -⟩ := before
  obtain ⟨above, candidates, below, loaded, small, free, counted⟩ := sound
  have count : (s.atWord words).countWord.freeBlocks = s.freeBlocks + 32 := by
    rw [countWord_freeBlocks, atWord_freeBlocks]
    omega
  refine ⟨count, ?_, ?_, below, ?_, ?_, ?_, ?_⟩
  · simpa using above
  · simpa using candidates
  · rw [countWord_buffer, countWord_currentSector, atWord]
  · rw [count, countWord_countedFreeBlocks, atWord_countedFreeBlocks]
    omega
  · intro b upper lower
    rw [count] at lower
    by_cases known : lastBlock < b + s.freeBlocks
    · exact free b upper known
    · exact bit_of_word_eq_zero zero (by omega) (by omega)
  · simpa using counted

/-- Before the first word of the bitmap is reached the walker stands before a word of it. -/
theorem Search.BeforeWord.countWord (before : s.BeforeWord lastBlock)
    (count : (s.atWord words).countWord.freeBlocks = s.freeBlocks + 32)
    (more : 32 ≤ s.currentBlock) (bound : s.currentBlock < 2 ^ 32) : (s.atWord words).countWord.BeforeWord lastBlock := by
  obtain ⟨position, aligned, -, -, -⟩ := before
  have back : (s.atWord words).countWord.currentBlock = s.currentBlock - 32 := by
    rw [countWord_currentBlock, atWord_currentBlock]
    omega
  refine ⟨?_, ?_, ?_, ?_, ?_⟩
  · rw [count, back]
    omega
  · rw [back]
    omega
  · rw [back, countWord_currentWord, atWord]
    dsimp only
    omega
  · rw [back, countWord_wordsLeft, atWord]
    dsimp only
    omega
  · rw [back, countWord_currentSector, atWord]
    dsimp only
    omega

/-- The loop over whole words of the bitmap, when the next word still fits into the count. -/
theorem Search.nextWord_spec (bound : endingBlock < 2 ^ 32) {fuel : ℕ}
    (sound : s.Sound words low endingBlock minBlocks lastBlock)
    (few : s.freeBlocks + s.countedFreeBlocks ≤ minBlocks)
    (room : s.freeBlocks + s.countedFreeBlocks + 32 < 2 ^ 32) (mask : s.bitMask = 1#32)
    (early : s.countedFreeBlocks = 0 ∨ minBlocks ≤ s.stopBlock)
    (before : s.BeforeWord lastBlock) :
    (∃ s' enough, nextWord io words minBlocks fuel s = .ok (s', enough) ∧
      Skipped words low endingBlock minBlocks lastBlock s s' enough) ∨
    ((∃ b ≤ s.currentBlock, io (b / 4096) ≠ none) ∨ fuel ≤ s.currentBlock / 32) ∧
      ∃ e, nextWord io words minBlocks fuel s = .error e := by
  induction fuel generalizing s with
  | zero => exact .inr ⟨.inr (Nat.zero_le _), _, rfl⟩
  | succ fuel ih =>
    have position := before.position
    have aligned := before.aligned
    have candidates := sound.candidates
    have below := sound.below
    unfold nextWord
    rcases previousWord_of_beforeWord before sound.loaded with moved | ⟨lost, e, moved⟩
    swap
    · rw [moved]
      exact .inr ⟨.inl ⟨_, le_rfl, lost⟩, e, rfl⟩
    rw [moved]
    dsimp only
    by_cases zero : words (s.currentBlock / 32) = 0#32
    swap
    · rw [if_neg (show ¬ (s.atWord words).tempWord = 0#32 from zero)]
      exact .inl ⟨_, _, rfl, skipped_of_ne sound few (by omega) mask before zero⟩
    rw [if_pos (show (s.atWord words).tempWord = 0#32 from zero)]
    obtain ⟨count, sound'⟩ := sound.countWord bound few before zero
    have kept : (s.atWord words).countWord.countedFreeBlocks = s.countedFreeBlocks := by
      simp
    have start : (s.atWord words).countWord.stopBlock = s.stopBlock := by
      simp
    have fits : (s.atWord words).countWord.freeBlocks +
        (s.atWord words).countWord.countedFreeBlocks < 2 ^ 32 := by
      omega
    rw [found_eq fits]
    split_ifs with enough
    · refine .inl ⟨_, _, rfl, sound', start, kept, fits, by omega, fun _ => ⟨enough, by omega⟩,
        by simp⟩
    -- Too few blocks yet, so the candidates reach below this word.
    have more : 32 ≤ s.currentBlock := by
      by_contra first
      have all := sound'.candidates
      omega
    have before' := before.countWord count more (by omega)
    have back := before'.position
    rcases ih sound' (by omega) (by omega)
        (by rw [countWord_bitMask, atWord, mask]) (by omega) before' with
      ⟨s', ended, result, skipped⟩ | ⟨lost, failed⟩
    · refine .inl ⟨s', ended, result, skipped.sound, skipped.stopBlock.trans start,
        skipped.countedFreeBlocks.trans kept, skipped.fits, skipped.aligned, fun all => ?_, fun part => ?_⟩
      · obtain ⟨reached, longer⟩ := skipped.filled all
        exact ⟨reached, by omega⟩
      · obtain ⟨live, fewer, lower, marked⟩ := skipped.stopped part
        exact ⟨live, fewer, by omega, marked⟩
    · refine .inr ⟨?_, failed⟩
      rcases lost with ⟨b, mem, unreadable⟩ | short
      · exact .inl ⟨b, by omega, unreadable⟩
      · exact .inr (by omega)

/-- Before the bitmap every candidate is free already, whatever the word read there holds. -/
theorem Search.nextWord_before_bitmap {fuel : ℕ} (minSmall : minBlocks ≤ 32)
    (sound : s.Sound words low endingBlock minBlocks lastBlock)
    (block : s.currentBlock = 2 ^ 32 - 1) (mask : s.bitMask = 1#32)
    (before : s.BeforeBitmap lastBlock) :
    (io 1048575 = none ∧ ∃ s' enough,
      nextWord io words minBlocks (fuel + 1) s = .ok (s', enough) ∧
      s'.Sound words low endingBlock minBlocks lastBlock ∧ s'.stopBlock = s.stopBlock ∧
      s'.countedFreeBlocks = s.countedFreeBlocks ∧
      s'.freeBlocks + s'.countedFreeBlocks < 2 ^ 32 ∧
      (enough = true → minBlocks ≤ s'.freeBlocks + s'.countedFreeBlocks) ∧
      (enough = false → s'.Passed lastBlock 31)) ∨
    io 1048575 ≠ none ∧ ∃ e, nextWord io words minBlocks (fuel + 1) s = .error e := by
  have lowBit : 1#32 = 0x80000000#32 >>> 31 := by decide
  have sector : s.currentBlock / 4096 = 1048575 := by omega
  unfold nextWord
  rcases previousWord_of_beforeBitmap before with ⟨word, moved⟩ | ⟨lost, e, moved⟩
  swap
  · rw [moved]
    rw [sector] at lost
    exact .inr ⟨lost, e, rfl⟩
  have readable : io 1048575 = none := by
    by_contra unreadable
    rw [← sector] at unreadable
    have blocked : ∃ e, s.previousWord io words = .error e := by
      obtain ⟨code, read⟩ := Option.ne_none_iff_exists'.mp unreadable
      unfold previousWord
      rw [if_neg (not_not.mpr before.wordsLeft), readBitmapBlock, read]
      exact ⟨_, rfl⟩
    obtain ⟨e, failed⟩ := blocked
    rw [moved] at failed
    cases failed
  obtain ⟨stop, all, -⟩ := before
  have none_counted : s.countedFreeBlocks = 0 := by
    have above := sound.above
    omega
  have candidates := sound.candidates
  left
  rw [moved]
  dsimp only
  refine ⟨readable, ?_⟩
  by_cases zero : words word = 0#32
  · rw [if_pos zero]
    generalize wordEq : mk _ _ _ _ _ _ _ _ _ _ = t
    have fields : t.stopBlock = s.stopBlock ∧ t.freeBlocks = s.freeBlocks ∧
        t.countedFreeBlocks = s.countedFreeBlocks ∧ t.buffer = t.currentSector * 128 := by
      rw [← wordEq]
      exact ⟨rfl, rfl, rfl, rfl⟩
    obtain ⟨stopEq, freeEq, countedEq, loadedEq⟩ := fields
    have count : t.countWord.freeBlocks = s.freeBlocks + 32 := by
      rw [countWord_freeBlocks, freeEq]
      omega
    have kept : t.countWord.countedFreeBlocks = 0 := by
      rw [countWord_countedFreeBlocks, countedEq, none_counted]
    have sound' : t.countWord.Sound words low endingBlock minBlocks lastBlock := by
      refine ⟨?_, ?_, sound.below, ?_, by omega, fun b upper _ => ?_, fun b upper lower => ?_⟩
      · rw [kept, countWord_stopBlock, stopEq]
        have above := sound.above
        omega
      · rw [kept, countWord_stopBlock, stopEq]
        omega
      · rw [countWord_buffer, countWord_currentSector, loadedEq]
      · exact sound.free b upper (by omega)
      · rw [countWord_stopBlock] at upper
        omega
    have fits : t.countWord.freeBlocks + t.countWord.countedFreeBlocks < 2 ^ 32 := by omega
    rw [found_eq fits, if_pos (by omega)]
    refine ⟨_, _, rfl, sound', ?_, by rw [kept, none_counted], fits, fun _ => by omega, by simp⟩
    rw [countWord_stopBlock, stopEq]
  · rw [if_neg zero]
    refine ⟨_, _, rfl, sound.congr rfl rfl rfl rfl, rfl, rfl, ?_, by simp, fun _ => ?_⟩
    · dsimp only
      omega
    · refine ⟨stop, by dsimp only; omega, by decide, mask.trans lowBit, exists_getMsbD zero, ?_⟩
      dsimp only
      omega

end NextWord

/-! ## One block -/

section Turn

variable {io : ReadErrors} {words : BitmapWords} {low endingBlock minBlocks lastBlock : ℕ}
  {s s' : Search}

private theorem highBit_shift_shiftLeft :
    ∀ k : ℕ, k < 32 → (0x80000000#32 >>> (k + 1)) <<< 1 = 0x80000000#32 >>> k ∨ k = 31 := by
  decide

private theorem highBit_shift_ne_zero : ∀ k : ℕ, k < 32 → 0x80000000#32 >>> k ≠ 0#32 := by
  decide

/-- The mask moves one bit to the left inside a word. -/
private theorem mask_shiftLeft {k : ℕ} (positive : 0 < k) (mem : k < 32) :
    (0x80000000#32 >>> k) <<< 1 = 0x80000000#32 >>> (k - 1) := by
  have moved := (highBit_shift_shiftLeft (k - 1) (by omega)).resolve_right (by omega)
  rwa [Nat.sub_add_cancel positive] at moved

/-- The state after the bitmap block of `currentBlock` has been brought in. -/
def Search.reloaded (s : Search) : Search :=
  { s with buffer := s.currentBlock / 4096 * 128, currentSector := s.currentBlock / 4096 }

theorem Search.load_spec (loaded : s.buffer = s.currentSector * 128) :
    s.load io = .ok s.reloaded ∨
      io (s.currentBlock / 4096) ≠ none ∧ ∃ e, s.load io = .error e := by
  unfold load
  split_ifs with differ
  · cases read : io (s.currentBlock / 4096) with
    | none =>
      rw [readBitmapBlock, read]
      exact .inl rfl
    | some code =>
      rw [readBitmapBlock, read]
      exact .inr ⟨Option.some_ne_none code, _, rfl⟩
  · have same := not_not.mp differ
    left
    rw [reloaded, ← same, ← loaded]

theorem Search.live_point (loaded : s.buffer = s.currentBlock / 4096 * 128)
    (sector : s.currentSector = s.currentBlock / 4096)
    (position : s.currentBlock + s.freeBlocks = lastBlock) :
    (s.point words).Live words lastBlock := by
  have index : s.buffer + s.currentBlock % 4096 / 32 = s.currentBlock / 32 := by omega
  refine ⟨position, index, ?_, sector, ?_, rfl⟩
  · unfold point
    dsimp only
    omega
  · unfold point
    dsimp only
    rw [index]

theorem Search.Live.and_eq_zero (live : s.Live words lastBlock) :
    s.tempWord &&& s.bitMask = 0#32 ↔ bit words s.currentBlock = false := by
  rw [live.temp, live.mask, and_blockMask_eq_zero, bit]

variable (bound : endingBlock < 2 ^ 32) (sound : s.Sound words low endingBlock minBlocks lastBlock)
  (live : s.Live words lastBlock)

include bound sound live

/-- A free block under the walker joins the range. -/
theorem Search.Sound.countBlock (more : s.stopBlock ≤ s.currentBlock)
    (clear : bit words s.currentBlock = false) :
    s.countBlock.Sound words low endingBlock minBlocks lastBlock := by
  have position := live.position
  obtain ⟨above, candidates, below, loaded, small, free, counted⟩ := sound
  have count : s.countBlock.freeBlocks = s.freeBlocks + 1 := by
    rw [countBlock_freeBlocks]
    omega
  refine ⟨?_, ?_, below, ?_, ?_, ?_, ?_⟩
  · rwa [countBlock_countedFreeBlocks, countBlock_stopBlock]
  · rwa [countBlock_countedFreeBlocks, countBlock_stopBlock]
  · rwa [countBlock_buffer, countBlock_currentSector]
  · rw [count, countBlock_countedFreeBlocks]
    omega
  · intro b upper lower
    rw [count] at lower
    by_cases known : lastBlock < b + s.freeBlocks
    · exact free b upper known
    · obtain rfl : b = s.currentBlock := by omega
      exact clear
  · rwa [countBlock_countedFreeBlocks, countBlock_stopBlock]

/-- The mask leaves the word exactly at its first block; inside the word the walker stays live. -/
theorem Search.Live.countBlock :
    (s.countBlock.bitMask = 0#32 → s.currentBlock % 32 = 0) ∧
      (s.countBlock.bitMask ≠ 0#32 → s.countBlock.Live words lastBlock) := by
  obtain ⟨position, word, left, sector, temp, mask⟩ := live
  have below := sound.below
  have count : s.countBlock.freeBlocks = s.freeBlocks + 1 := by
    rw [countBlock_freeBlocks]
    omega
  rw [countBlock_bitMask]
  by_cases wordEnd : s.currentBlock % 32 = 0
  · have zero : s.bitMask <<< 1 = 0#32 := by
      rw [mask, wordEnd]
      decide
    exact ⟨fun _ => wordEnd, fun nonzero => absurd zero nonzero⟩
  · have moved : s.bitMask <<< 1 = 0x80000000#32 >>> (s.currentBlock % 32 - 1) := by
      rw [mask]
      exact mask_shiftLeft (by omega) (by omega)
    have nonzero : s.bitMask <<< 1 ≠ 0#32 := by
      rw [moved]
      exact highBit_shift_ne_zero _ (by omega)
    refine ⟨fun zero => absurd zero nonzero, fun _ => ?_⟩
    have back : s.countBlock.currentBlock = s.currentBlock - 1 := by
      rw [countBlock_currentBlock]
      omega
    have index : (s.currentBlock - 1) / 32 = s.currentBlock / 32 := by omega
    refine ⟨?_, ?_, ?_, ?_, ?_, ?_⟩
    · rw [back, count]
      omega
    · rw [back, index, countBlock_currentWord, word]
    · rw [back, index, countBlock_wordsLeft, left]
    · rw [back, countBlock_currentSector, sector]
      omega
    · rw [back, index, countBlock_tempWord, temp]
    · have bitIndex : (s.currentBlock - 1) % 32 = s.currentBlock % 32 - 1 := by omega
      rw [back, countBlock_bitMask, moved, bitIndex]

/-- At the first block of a word the walker turns to the word before, or to what lies before the
bitmap. -/
theorem Search.Live.before (more : s.stopBlock ≤ s.currentBlock)
    (wordEnd : s.currentBlock % 32 = 0) :
    (s.currentBlock ≠ 0 → s.countBlock.lowBit.BeforeWord lastBlock) ∧
      (s.currentBlock = 0 → s.countBlock.lowBit.BeforeBitmap lastBlock) := by
  obtain ⟨position, word, left, sector, temp, mask⟩ := live
  have below := sound.below
  have count : s.countBlock.freeBlocks = s.freeBlocks + 1 := by
    rw [countBlock_freeBlocks]
    omega
  constructor
  swap
  · intro first
    refine ⟨?_, ?_, ?_⟩ <;> unfold lowBit <;> dsimp only
    · rw [countBlock_stopBlock]
      omega
    · rw [count]
      omega
    · rw [countBlock_wordsLeft, left, first]
  · intro mem
    have back : s.countBlock.currentBlock = s.currentBlock - 1 := by
      rw [countBlock_currentBlock]
      omega
    refine ⟨?_, ?_, ?_, ?_, ?_⟩ <;> unfold lowBit <;> dsimp only <;> rw [back]
    · rw [count]
      omega
    · omega
    · rw [countBlock_currentWord]
      omega
    · rw [countBlock_wordsLeft]
      omega
    · rw [countBlock_currentSector]
      omega

omit bound sound live

/-- After an allocated block the candidates move up, and the free blocks above it stay counted. -/
theorem Search.Sound.jump (sound : s.Sound words low endingBlock minBlocks lastBlock)
    (live : s.Live words lastBlock) (more : s.stopBlock ≤ s.currentBlock)
    (mem : s.currentBlock + minBlocks < endingBlock) (few : s.freeBlocks ≤ minBlocks)
    {t : Search} (stop : t.stopBlock = s.currentBlock + 1 + s.freeBlocks)
    (none : t.freeBlocks = 0) (kept : t.countedFreeBlocks = s.freeBlocks)
    (loaded : t.buffer = t.currentSector * 128) :
    t.Sound words low endingBlock minBlocks (s.currentBlock + minBlocks) := by
  have position := live.position
  obtain ⟨above, candidates, below, -, -, free, -⟩ := sound
  refine ⟨by omega, by omega, mem, loaded, by omega, ?_, ?_⟩
  · intro b upper lower
    omega
  · intro b upper lower
    exact free b (by omega) (by omega)

/-- A walker past block zero that reads a clear bit has a set bit ahead in the same word. -/
theorem Search.Passed.countBlock {k : ℕ} (minSmall : minBlocks ≤ 32)
    (sound : s.Sound words low endingBlock minBlocks lastBlock) (passed : s.Passed lastBlock k)
    (clear : s.tempWord &&& s.bitMask = 0#32) :
    0 < k ∧ s.countBlock.bitMask ≠ 0#32 ∧ s.countBlock.Passed lastBlock (k - 1) ∧
      s.countBlock.Sound words low endingBlock minBlocks lastBlock := by
  obtain ⟨atZero, beyond, mem, masked, ⟨j, le, marked⟩, few⟩ := passed
  obtain ⟨above, candidates, below, loaded, small, free, counted⟩ := sound
  have count : s.countBlock.freeBlocks = s.freeBlocks + 1 := by
    rw [countBlock_freeBlocks]
    omega
  have bitClear : s.tempWord.getMsbD k = false := by
    have selected := and_blockMask_eq_zero s.tempWord k
    rw [Nat.mod_eq_of_lt mem, ← masked] at selected
    exact selected.mp clear
  have earlier : j ≠ k := by
    rintro rfl
    rw [bitClear] at marked
    cases marked
  have shifted : s.countBlock.bitMask = 0x80000000#32 >>> (k - 1) := by
    rw [countBlock_bitMask, masked]
    exact mask_shiftLeft (by omega) mem
  refine ⟨by omega, ?_, ⟨?_, ?_, by omega, shifted, ⟨j, by omega, ?_⟩, ?_⟩, ⟨?_, ?_, below, ?_, ?_, ?_, ?_⟩⟩
  · rw [shifted]
    exact highBit_shift_ne_zero _ (by omega)
  · rwa [countBlock_stopBlock]
  · rw [count]
    omega
  · rwa [countBlock_tempWord]
  · rw [count]
    omega
  · rwa [countBlock_countedFreeBlocks, countBlock_stopBlock]
  · rwa [countBlock_countedFreeBlocks, countBlock_stopBlock]
  · rwa [countBlock_buffer, countBlock_currentSector]
  · rw [count, countBlock_countedFreeBlocks]
    omega
  · exact fun b upper _ => free b upper (by omega)
  · rwa [countBlock_countedFreeBlocks, countBlock_stopBlock]

end Turn

end Darwin.Hfs
