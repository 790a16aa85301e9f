import Darwin.Hfs.VolumeAllocation.Search

/-!
# Searching for a contiguous range

The backward loop of `BlockFindContiguous`, one turn at a time.  `Search.Seeks` adds to the blocks
counted what has been ruled out: every range that starts below the candidates meets an allocated
block.  `Search.Stage` says where the walker can be at the head of the loop, with a bound on the
turns left, and `Search.Stage.turn` everything one turn can do from there.

Two searches go astray.  One whose candidates begin at block zero and end in the first word of the
bitmap steps over block zero and reads a bitmap block for block `2 ^ 32 - 1`.  One for `2 ^ 32 - 32`
blocks wraps the number of blocks found when it takes a whole word past the last candidate.
-/

namespace Darwin.Hfs

open Darwin.WordBitmap Search

/-! ## The state at the head of the loop -/

section Stage

variable {io : ReadErrors} {words : BitmapWords} {low endingBlock minBlocks lastBlock : ℕ}
  {s s' : Search}

/-- `n` free blocks of `[low, high)`, from `start` on. -/
structure ClearRun (words : BitmapWords) (low high n start : ℕ) : Prop where
  lower : low ≤ start
  upper : start + n ≤ high
  free : ∀ b, start ≤ b → b < start + n → bit words b = false

/-- The search walks past block zero and cannot read what it finds there. -/
def ReadsBefore (io : ReadErrors) (words : BitmapWords) (low high n : ℕ) : Prop :=
  low = 0 ∧ n ≤ 32 ∧ io 1048575 ≠ none ∧ ClearRun words low high n 0

/-- The count of the blocks found wraps before the search sees that it has found enough. -/
def CountWraps (words : BitmapWords) (low high n : ℕ) : Prop :=
  low = 0 ∧ n = 2 ^ 32 - 32 ∧ ¬ ClearRun words low high n 0 ∧ ∃ start, ClearRun words low high n start

/-- A sound search that has ruled out every range below its candidates. -/
structure Search.Seeks (words : BitmapWords) (low endingBlock minBlocks lastBlock : ℕ)
    (s : Search) : Prop where
  sound : s.Sound words low endingBlock minBlocks lastBlock
  fewer : s.countedFreeBlocks < minBlocks
  early : s.countedFreeBlocks = 0 ∧ s.stopBlock = low ∨
    low + minBlocks ≤ s.stopBlock ∧ s.countedFreeBlocks < s.stopBlock ∧
      (minBlocks = 2 ^ 32 - 32 → s.stopBlock = low + minBlocks)
  rejected : ∀ start, low ≤ start → start + s.countedFreeBlocks < s.stopBlock →
    ∃ b, start ≤ b ∧ b < start + minBlocks ∧ bit words b = true

/-- The walker stands inside the bitmap, has not found more than enough, and has an allocated block
ahead in every word it has come to from the word after. -/
structure Search.Walks (words : BitmapWords) (minBlocks lastBlock : ℕ) (s : Search) : Prop where
  live : s.Live words lastBlock
  few : s.freeBlocks + s.countedFreeBlocks ≤ minBlocks
  marked : s.currentBlock / 32 = lastBlock / 32 ∨
    ∃ b ≤ s.currentBlock, b / 32 = s.currentBlock / 32 ∧ bit words b = true

/-- The states at the head of the backward loop, with a bound on the turns that are left. -/
inductive Search.Stage (io : ReadErrors) (words : BitmapWords) (low endingBlock minBlocks : ℕ)
    (s : Search) : ℕ → Prop where
  | walking (lastBlock : ℕ) (seeks : s.Seeks words low endingBlock minBlocks lastBlock)
      (walks : s.Walks words minBlocks lastBlock) :
      Stage io words low endingBlock minBlocks s
        (2 * (endingBlock - lastBlock) + (s.currentBlock + 1 - s.stopBlock) + 40)
  | passed (lastBlock k : ℕ) (seeks : s.Seeks words low endingBlock minBlocks lastBlock)
      (passed : s.Passed lastBlock k) (small : minBlocks ≤ 32) (readable : io 1048575 = none) :
      Stage io words low endingBlock minBlocks s (2 * (endingBlock - lastBlock) + k)
  /-- The loop ends here, with too few blocks. -/
  | giveUp (ended : s.currentBlock < s.stopBlock) (few : s.found < minBlocks)
      (cause : (∀ start, ¬ ClearRun words low endingBlock minBlocks start) ∨
        CountWraps words low endingBlock minBlocks) :
      Stage io words low endingBlock minBlocks s 0

/-- How the backward loop ends: at the first range that is long enough, or with too few blocks. -/
inductive Search.Ended (io : ReadErrors) (words : BitmapWords) (low endingBlock minBlocks : ℕ)
    (s : Search) : Prop where
  | found (lastBlock : ℕ) (seeks : s.Seeks words low endingBlock minBlocks lastBlock)
      (enough : minBlocks ≤ s.freeBlocks + s.countedFreeBlocks)
      (fits : s.freeBlocks + s.countedFreeBlocks < 2 ^ 32)
      (reads : ¬ ReadsBefore io words low endingBlock minBlocks)
      (counts : ¬ CountWraps words low endingBlock minBlocks)
  | full (few : s.found < minBlocks)
      (cause : (∀ start, ¬ ClearRun words low endingBlock minBlocks start) ∨
        CountWraps words low endingBlock minBlocks)

theorem Search.Seeks.congr (seeks : s.Seeks words low endingBlock minBlocks lastBlock) {t : Search}
    (sound : t.Sound words low endingBlock minBlocks lastBlock) (stop : t.stopBlock = s.stopBlock)
    (counted : t.countedFreeBlocks = s.countedFreeBlocks) :
    t.Seeks words low endingBlock minBlocks lastBlock := by
  obtain ⟨-, fewer, early, rejected⟩ := seeks
  rw [← stop, ← counted] at early rejected
  rw [← counted] at fewer
  exact ⟨sound, fewer, early, rejected⟩

/-- A search that has found enough has found a range. -/
theorem Search.Sound.clearRun (sound : s.Sound words low endingBlock minBlocks lastBlock)
    (enough : minBlocks ≤ s.freeBlocks + s.countedFreeBlocks) :
    ClearRun words low endingBlock minBlocks (s.stopBlock - s.countedFreeBlocks) := by
  have above := sound.above
  have candidates := sound.candidates
  have below := sound.below
  exact ⟨by omega, by omega, sound.range enough⟩

variable (seeks : s.Seeks words low endingBlock minBlocks lastBlock)

include seeks

/-- No range starts below the candidates of a search. -/
theorem Search.Seeks.le_start {start : ℕ} (run : ClearRun words low endingBlock minBlocks start) :
    s.stopBlock ≤ start + s.countedFreeBlocks := by
  by_contra before
  obtain ⟨b, lower, upper, used⟩ := seeks.rejected start run.lower (by omega)
  rw [run.free b lower upper] at used
  cases used

/-- Where block zero starts a range, the candidates of the search are still the first ones. -/
theorem Search.Seeks.first_of_zero (run : ClearRun words low endingBlock minBlocks 0) :
    s.stopBlock = 0 ∧ s.countedFreeBlocks = 0 ∧ lastBlock + 1 = minBlocks := by
  have first := seeks.le_start run
  have candidates := seeks.sound.candidates
  rcases seeks.early with ⟨none_counted, stop⟩ | ⟨-, later, -⟩
  · omega
  · omega

/-- When the candidates are past the end of the range there is no free range left. -/
theorem Search.Seeks.none_left
    (live : s.Live words lastBlock) (used : bit words s.currentBlock = true)
    (past : endingBlock ≤ s.currentBlock + minBlocks) :
    ∀ start, ¬ ClearRun words low endingBlock minBlocks start := by
  intro start run
  have first := seeks.le_start run
  have upper := run.upper
  have candidates := seeks.sound.candidates
  have position := live.position
  rw [run.free s.currentBlock (by omega) (by omega)] at used
  cases used

omit seeks

/-- A walker that has passed its candidates has found a range, and that is not a search for
`2 ^ 32 - 32` blocks whose count wraps. -/
theorem Search.Stage.ended_of_lt (bound : endingBlock < 2 ^ 32)
    (seeks : s.Seeks words low endingBlock minBlocks lastBlock)
    (walks : s.Walks words minBlocks lastBlock) (ended : s.currentBlock < s.stopBlock) :
    s.Ended io words low endingBlock minBlocks := by
  have position := walks.live.position
  have few := walks.few
  have candidates := seeks.sound.candidates
  have below := seeks.sound.below
  have above := seeks.sound.above
  have enough : minBlocks ≤ s.freeBlocks + s.countedFreeBlocks := by omega
  have run := seeks.sound.clearRun enough
  refine .found lastBlock seeks enough (by omega) ?_ ?_
  · rintro ⟨-, -, -, zero⟩
    have first := seeks.first_of_zero zero
    omega
  rintro ⟨lowZero, many, notZero, -⟩
  rcases seeks.early with ⟨none_counted, stop⟩ | ⟨-, later, last⟩
  · rw [none_counted, stop, Nat.sub_zero, lowZero] at run
    rw [lowZero] at notZero
    exact notZero run
  -- The walker came from the word after, so there is an allocated block among the candidates.
  have stop := last many
  rcases walks.marked with same | ⟨b, lower, word, used⟩
  · omega
  · rw [run.free b (by omega) (by omega)] at used
    cases used

end Stage

/-! ## One turn -/

section Turn

variable {io : ReadErrors} {words : BitmapWords} {low endingBlock minBlocks lastBlock : ℕ}
  {s s' : Search}

/-- Why a turn can fail: a bitmap block of the range cannot be read, or the one read for the block
before block zero, or the bound on the iterations is reached. -/
def Blocked (io : ReadErrors) (words : BitmapWords) (low endingBlock minBlocks fuel : ℕ) : Prop :=
  (∃ b < endingBlock, io (b / 4096) ≠ none) ∨ ReadsBefore io words low endingBlock minBlocks ∨
    fuel < 2 ^ 27 + 1

/-- The three things one turn of the backward loop can do. -/
inductive Search.Turned (io : ReadErrors) (words : BitmapWords)
    (low endingBlock minBlocks fuel measure : ℕ) : Except AllocErr Search → Prop where
  | ended (s' : Search) (ended : s'.Ended io words low endingBlock minBlocks) :
      Turned io words low endingBlock minBlocks fuel measure (.ok s')
  | onward (t : Search) (smaller : ℕ) (less : smaller < measure)
      (stage : t.Stage io words low endingBlock minBlocks smaller) :
      Turned io words low endingBlock minBlocks fuel measure
        (run io words endingBlock minBlocks fuel t)
  | blocked (e : AllocErr) (cause : Blocked io words low endingBlock minBlocks fuel) :
      Turned io words low endingBlock minBlocks fuel measure (.error e)

private theorem word_eq_zero {q : ℕ} (clear : ∀ b, q * 32 ≤ b → b < q * 32 + 32 →
    bit words b = false) : words q = 0#32 := by
  apply BitVec.eq_of_getMsbD_eq
  intro j mem
  have index : (q * 32 + j) / 32 = q := by omega
  have offset : (q * 32 + j) % 32 = j := by omega
  have free := clear (q * 32 + j) (by omega) (by omega)
  rw [bit, index, offset] at free
  rw [free, BitVec.getMsbD_zero]

private theorem word_ne_zero {b : ℕ} (used : bit words b = true) : words (b / 32) ≠ 0#32 := by
  intro zero
  rw [bit, zero, BitVec.getMsbD_zero] at used
  cases used

/-- Once the count has wrapped, the loop over whole words never sees enough blocks: it runs down to
the first word, where an allocated block stops it. -/
private theorem nextWord_wraps {fuel : ℕ} (many : minBlocks = 2 ^ 32 - 32)
    (stop : s.stopBlock = 2 ^ 32 - 32) (before : s.BeforeWord lastBlock)
    (loaded : s.buffer = s.currentSector * 128)
    (candidates : lastBlock + 1 + s.countedFreeBlocks = s.stopBlock + minBlocks)
    (below : lastBlock + 1 < 2 ^ 32) (block : s.currentBlock < 2 ^ 32 - 32)
    (clear : ∀ b, 32 ≤ b → b ≤ s.currentBlock → bit words b = false) (first : words 0 ≠ 0#32) :
    (∃ s', nextWord io words minBlocks fuel s = .ok (s', false) ∧
      s'.currentBlock < s'.stopBlock ∧ s'.found < minBlocks) ∨
    ((∃ b ≤ s.currentBlock, io (b / 4096) ≠ none) ∨ fuel ≤ s.currentBlock / 32) ∧
      ∃ e, nextWord io words minBlocks fuel s = .error e := by
  induction fuel generalizing s with
  | zero => exact .inr ⟨.inr (Nat.zero_le _), _, rfl⟩
  | succ fuel ih =>
    have position := before.position
    have aligned := before.aligned
    unfold nextWord
    rcases previousWord_of_beforeWord before loaded with moved | ⟨lost, e, moved⟩
    swap
    · rw [moved]
      exact .inr ⟨.inl ⟨_, le_rfl, lost⟩, e, rfl⟩
    rw [moved]
    dsimp only
    by_cases last : s.currentBlock = 31
    · have used : (s.atWord words).tempWord ≠ 0#32 := by
        rw [atWord, last]
        exact first
      rw [if_neg used]
      refine .inl ⟨_, rfl, ?_, ?_⟩
      · rw [atWord_currentBlock, atWord_stopBlock]
        omega
      · rw [found, atWord_freeBlocks, atWord_countedFreeBlocks]
        omega
    · have zero : (s.atWord words).tempWord = 0#32 := by
        rw [atWord]
        apply word_eq_zero
        intro b lower upper
        exact clear b (by omega) (by omega)
      have count : (s.atWord words).countWord.freeBlocks = s.freeBlocks + 32 := by
        rw [countWord_freeBlocks, atWord_freeBlocks]
        omega
      have few : ¬ (s.atWord words).countWord.found ≥ minBlocks := by
        rw [found, count, countWord_countedFreeBlocks,
          atWord_countedFreeBlocks]
        omega
      rw [if_pos zero, if_neg few]
      have before' := before.countWord count (by omega) (by omega)
      have back := before'.position
      rcases ih (by simpa using stop) before'
        (by rw [countWord_buffer, countWord_currentSector, atWord])
        (by simpa using candidates) (by omega) (fun b lower upper => clear b lower (by omega))
        with found | ⟨lost, failed⟩
      · exact .inl found
      refine .inr ⟨?_, failed⟩
      rcases lost with ⟨b, mem, unreadable⟩ | short
      · exact .inl ⟨b, by omega, unreadable⟩
      · exact .inr (by omega)

variable (bound : endingBlock < 2 ^ 32) (seeks : s.Seeks words low endingBlock minBlocks lastBlock)

include bound seeks

/-- A free block inside a word joins the range. -/
theorem Search.Walks.countBlock (walks : s.Walks words minBlocks lastBlock)
    (more : s.stopBlock ≤ s.currentBlock) (clear : bit words s.currentBlock = false)
    (inWord : s.countBlock.bitMask ≠ 0#32) :
    s.countBlock.Seeks words low endingBlock minBlocks lastBlock ∧
      s.countBlock.Walks words minBlocks lastBlock ∧
      s.countBlock.currentBlock + 1 = s.currentBlock := by
  have sound := seeks.sound.countBlock bound walks.live more clear
  have live := (walks.live.countBlock bound seeks.sound).2 inWord
  have position := walks.live.position
  have position' := live.position
  have candidates := seeks.sound.candidates
  have count : s.countBlock.freeBlocks = s.freeBlocks + 1 := by
    have below := seeks.sound.below
    rw [countBlock_freeBlocks]
    omega
  have mem : s.currentBlock % 32 ≠ 0 := by
    intro wordEnd
    apply inWord
    rw [countBlock_bitMask, walks.live.mask, wordEnd]
    decide
  refine ⟨seeks.congr sound (by simp) (by simp), ⟨live, ?_, ?_⟩, by omega⟩
  · rw [count, countBlock_countedFreeBlocks]
    omega
  rcases walks.marked with same | ⟨b, lower, word, used⟩
  · left
    omega
  have other : b ≠ s.currentBlock := by
    rintro rfl
    rw [clear] at used
    cases used
  exact .inr ⟨b, by omega, by omega, used⟩

/-- The state in which the loop over whole words starts. -/
private theorem lowBit_seeks (live : s.Live words lastBlock) (more : s.stopBlock ≤ s.currentBlock)
    (clear : bit words s.currentBlock = false) :
    s.countBlock.lowBit.Seeks words low endingBlock minBlocks lastBlock ∧
      s.countBlock.lowBit.freeBlocks = s.freeBlocks + 1 ∧
      s.countBlock.lowBit.countedFreeBlocks = s.countedFreeBlocks ∧
      s.countBlock.lowBit.stopBlock = s.stopBlock ∧ s.countBlock.lowBit.bitMask = 1#32 := by
  have sound := seeks.sound.countBlock bound live more clear
  have position := live.position
  have below := seeks.sound.below
  have stop : s.countBlock.lowBit.stopBlock = s.stopBlock := by
    rw [lowBit]
    simp
  have counted : s.countBlock.lowBit.countedFreeBlocks = s.countedFreeBlocks := by
    rw [lowBit]
    simp
  refine ⟨seeks.congr (sound.congr ?_ ?_ ?_ ?_) stop counted, ?_, counted, stop, ?_⟩
  · rw [lowBit]
  · rw [lowBit]
  · rw [lowBit]
  · rw [lowBit]
    dsimp only
    exact sound.loaded
  · rw [lowBit]
    dsimp only
    rw [countBlock_freeBlocks]
    omega
  · rw [lowBit]

omit bound seeks

variable {fuel measure : ℕ}

/-- The turn that counts block zero leaves the bitmap. -/
private theorem turn_blockZero (seeks : s.Seeks words low endingBlock minBlocks lastBlock)
    (walks : s.Walks words minBlocks lastBlock) (bound : endingBlock < 2 ^ 32)
    (zero : s.currentBlock = 0) (more : s.stopBlock ≤ s.currentBlock)
    (clear : bit words s.currentBlock = false) :
    Turned io words low endingBlock minBlocks fuel
      (2 * (endingBlock - lastBlock) + (s.currentBlock + 1 - s.stopBlock) + 40)
      (match nextWord io words minBlocks fuel s.countBlock.lowBit with
        | .error e => .error e
        | .ok (s, true) => .ok s
        | .ok (s, false) => run io words endingBlock minBlocks fuel s) := by
  have position := walks.live.position
  have candidates := seeks.sound.candidates
  have above := seeks.sound.above
  obtain ⟨seeks', count, counted, stop, mask⟩ := lowBit_seeks bound seeks walks.live more clear
  have before := (walks.live.before bound seeks.sound more (by omega)).2 zero
  have run := seeks'.sound.clearRun (by omega)
  have lowZero : low = 0 := by omega
  have small : minBlocks ≤ 32 := by
    have few : lastBlock < 32 := by
      rcases walks.marked with same | ⟨b, lower, word, used⟩
      · omega
      · obtain rfl : b = s.currentBlock := by omega
        rw [clear] at used
        cases used
    omega
  cases fuel with
  | zero => exact .blocked _ (.inr (.inr (by decide)))
  | succ fuel =>
    have block : s.countBlock.lowBit.currentBlock = 2 ^ 32 - 1 := by
      rw [lowBit]
      rw [countBlock_currentBlock, zero]
      norm_num
    rcases @nextWord_before_bitmap io words low endingBlock minBlocks lastBlock _ fuel small
      seeks'.sound block mask before with
      ⟨readable, s', enough, moved, sound, start, kept, fits, all, part⟩ | ⟨lost, e, moved⟩
    · have past := seeks'.congr sound start kept
      rw [moved]
      cases enough with
      | true =>
        refine .ended _ (.found lastBlock past (all rfl) fits ?_ ?_)
        · exact fun reads => reads.2.2.1 readable
        · rintro ⟨-, many, -⟩
          omega
      | false =>
        exact .onward s' _ (by omega) (.passed lastBlock 31 past (part rfl) small readable)
    · rw [moved]
      refine .blocked e (.inr (.inl ⟨lowZero, small, lost, ?_⟩))
      have first : s.countBlock.lowBit.stopBlock - s.countBlock.lowBit.countedFreeBlocks = 0 := by
        omega
      rw [first] at run
      rw [lowZero] at run ⊢
      exact run

/-- A search whose count wraps at the end of a word is one for `2 ^ 32 - 32` blocks that has moved
its candidates up from block zero. -/
private theorem countWraps_of_full (bound : endingBlock < 2 ^ 32)
    (seeks : s.Seeks words low endingBlock minBlocks lastBlock)
    (run : ClearRun words low endingBlock minBlocks (s.stopBlock - s.countedFreeBlocks))
    (many : minBlocks = 2 ^ 32 - 32) (stop : s.stopBlock = 2 ^ 32 - 32) :
    CountWraps words low endingBlock minBlocks ∧ words 0 ≠ 0#32 := by
  have upper := run.upper
  rcases seeks.early with ⟨none_counted, first⟩ | ⟨later, moved, -⟩
  · omega
  have lowZero : low = 0 := by omega
  refine ⟨⟨lowZero, many, fun zero => ?_, _, run⟩, ?_⟩
  · have first := seeks.first_of_zero zero
    omega
  -- The block before the range is allocated, and lies in the first word.
  obtain ⟨b, lower, below, used⟩ := seeks.rejected
    (s.stopBlock - s.countedFreeBlocks - 1) (by omega) (by omega)
  have before : b < s.stopBlock - s.countedFreeBlocks := by
    by_contra mem
    rw [run.free b (by omega) (by omega)] at used
    cases used
  have word : b / 32 = 0 := by omega
  have nonzero := word_ne_zero used
  rwa [word] at nonzero

/-- The turn that counts the first block of a word goes on to the words before it. -/
private theorem turn_wordEnd (seeks : s.Seeks words low endingBlock minBlocks lastBlock)
    (walks : s.Walks words minBlocks lastBlock) (bound : endingBlock < 2 ^ 32)
    (mem : s.currentBlock ≠ 0) (wordEnd : s.currentBlock % 32 = 0)
    (more : s.stopBlock ≤ s.currentBlock) (clear : bit words s.currentBlock = false) :
    Turned io words low endingBlock minBlocks fuel
      (2 * (endingBlock - lastBlock) + (s.currentBlock + 1 - s.stopBlock) + 40)
      (match nextWord io words minBlocks fuel s.countBlock.lowBit with
        | .error e => .error e
        | .ok (s, true) => .ok s
        | .ok (s, false) => run io words endingBlock minBlocks fuel s) := by
  have position := walks.live.position
  have candidates := seeks.sound.candidates
  have below := seeks.sound.below
  obtain ⟨seeks', count, counted, stop, mask⟩ := lowBit_seeks bound seeks walks.live more clear
  have before := (walks.live.before bound seeks.sound more wordEnd).1 mem
  have position' := before.position
  have blocked : ((∃ b ≤ s.countBlock.lowBit.currentBlock, io (b / 4096) ≠ none) ∨
      fuel ≤ s.countBlock.lowBit.currentBlock / 32) →
      Blocked io words low endingBlock minBlocks fuel := by
    rintro (⟨b, lower, unreadable⟩ | short)
    · exact .inl ⟨b, by omega, unreadable⟩
    · exact .inr (.inr (by omega))
  by_cases room : s.countBlock.lowBit.freeBlocks + s.countBlock.lowBit.countedFreeBlocks + 32 <
      2 ^ 32
  · have early : s.countBlock.lowBit.countedFreeBlocks = 0 ∨
        minBlocks ≤ s.countBlock.lowBit.stopBlock := by
      rcases seeks'.early with ⟨none_counted, -⟩ | ⟨later, -, -⟩
      · exact .inl none_counted
      · exact .inr (by omega)
    rcases nextWord_spec bound seeks'.sound (by omega) room mask early before with ⟨s', enough, moved, skipped⟩ | ⟨lost, e, moved⟩
    swap
    · rw [moved]
      exact .blocked e (blocked lost)
    have past := seeks'.congr skipped.sound skipped.stopBlock skipped.countedFreeBlocks
    have fits := skipped.fits
    have start := skipped.stopBlock
    rw [moved]
    cases enough with
    | true =>
      obtain ⟨reached, longer⟩ := skipped.filled rfl
      refine .ended _ (.found lastBlock past reached fits ?_ ?_)
      · rintro ⟨-, small, -, zero⟩
        have first := seeks.first_of_zero zero
        omega
      rintro ⟨lowZero, many, notZero, -⟩
      rcases past.early with ⟨none_counted, first⟩ | ⟨later, -, last⟩
      · have run := past.sound.clearRun reached
        rw [none_counted, first, Nat.sub_zero, lowZero] at run
        rw [lowZero] at notZero
        exact notZero run
      · have stopEq := last many
        omega
    | false =>
      obtain ⟨live, few, lower, marked⟩ := skipped.stopped rfl
      exact .onward s' _ (by omega) (.walking lastBlock past ⟨live, few, .inr marked⟩)
  · have late : low + minBlocks ≤ s.stopBlock := by
      rcases seeks.early with ⟨none_counted, first⟩ | ⟨later, -, -⟩
      · omega
      · exact later
    have many : minBlocks = 2 ^ 32 - 32 := by omega
    have stopEq : s.countBlock.lowBit.stopBlock = 2 ^ 32 - 32 := by omega
    have run := seeks'.sound.clearRun (by omega)
    obtain ⟨wraps, first⟩ := countWraps_of_full bound seeks' run many stopEq
    rcases @nextWord_wraps io words minBlocks lastBlock _ fuel many stopEq before
      seeks'.sound.loaded seeks'.sound.candidates (by omega) (by omega)
      (fun b lower upper => run.free b (by have := run.upper; omega) (by omega)) first with
      ⟨s', moved, ended, few⟩ | ⟨lost, e, moved⟩
    · rw [moved]
      exact .onward s' 0 (by omega) (.giveUp ended few (.inr wraps))
    · rw [moved]
      exact .blocked e (blocked lost)

variable (bound : endingBlock < 2 ^ 32)

include bound

/-- An allocated block moves the candidates up. -/
private theorem turn_used (seeks : s.Seeks words low endingBlock minBlocks lastBlock)
    (walks : s.Walks words minBlocks lastBlock) (more : s.stopBlock ≤ s.currentBlock)
    (used : bit words s.currentBlock = true) :
    Turned io words low endingBlock minBlocks fuel
      (2 * (endingBlock - lastBlock) + (s.currentBlock + 1 - s.stopBlock) + 40)
      (if (s.jump minBlocks).currentBlock ≥ endingBlock then .ok (s.jump minBlocks)
        else
          match (s.jump minBlocks).restart.load io with
          | .error e => .error e
          | .ok s => run io words endingBlock minBlocks fuel (s.point words)) := by
  have position := walks.live.position
  have candidates := seeks.sound.candidates
  have above := seeks.sound.above
  have below := seeks.sound.below
  split_ifs with past
  · -- The candidates do not fit below the end any more.
    rw [jump_currentBlock] at past
    refine .ended _ (.full ?_ (.inl (seeks.none_left walks.live used (by omega))))
    rw [found, jump_freeBlocks, jump_countedFreeBlocks]
    omega
  rw [jump_currentBlock] at past
  have restarted : (s.jump minBlocks).restart.buffer =
      (s.jump minBlocks).restart.currentSector * 128 := by
    rw [restart]
    rw [jump_buffer, jump_currentSector, seeks.sound.loaded]
  have blockEq : (s.jump minBlocks).restart.currentBlock = (s.currentBlock + minBlocks) % 2 ^ 32 := by
    rw [restart]
    dsimp only
    rw [jump_currentBlock]
  rcases @load_spec io _ restarted with loaded | ⟨lost, e, loaded⟩
  swap
  · rw [loaded]
    rw [blockEq] at lost
    exact .blocked e (.inl ⟨_, not_le.mp past, lost⟩)
  rw [loaded]
  obtain ⟨t, same, blockEq, stopEq, freeEq, countedEq, sectorEq, bufferEq⟩ :
      ∃ t, t = (s.jump minBlocks).restart.reloaded ∧
        t.currentBlock = (s.currentBlock + minBlocks) % 2 ^ 32 ∧
        t.stopBlock = s.currentBlock + 1 + s.freeBlocks ∧ t.freeBlocks = 0 ∧
        t.countedFreeBlocks = s.freeBlocks ∧ t.currentSector = t.currentBlock / 4096 ∧
        t.buffer = t.currentBlock / 4096 * 128 := by
    refine ⟨_, rfl, ?_, ?_, ?_, ?_, ?_, ?_⟩
    · rw [reloaded, ← blockEq]
    · rw [reloaded, restart]
      rw [jump_stopBlock]
      omega
    · rw [reloaded, restart]
    · rw [reloaded, restart]
      dsimp only
      rw [jump_freeBlocks]
    · rw [reloaded]
    · rw [reloaded]
  rw [← same]
  by_cases wraps : s.currentBlock + minBlocks < 2 ^ 32
  · rw [Nat.mod_eq_of_lt wraps] at past blockEq
    have sound := seeks.sound.jump walks.live more (by omega) (by omega) stopEq freeEq countedEq
      (by rw [bufferEq, sectorEq])
    have pointed : (t.point words).Sound words low endingBlock minBlocks
        (s.currentBlock + minBlocks) := by
      refine sound.congr ?_ ?_ ?_ ?_ <;> rw [point]
      rw [bufferEq, sectorEq]
    have stopEq' : (t.point words).stopBlock = s.currentBlock + 1 + s.freeBlocks := by
      rw [point, ← stopEq]
    have countedEq' : (t.point words).countedFreeBlocks = s.freeBlocks := by
      rw [point, ← countedEq]
    have freeEq' : (t.point words).freeBlocks = 0 := by
      rw [point, ← freeEq]
    have blockEq' : (t.point words).currentBlock = s.currentBlock + minBlocks := by
      rw [point, ← blockEq]
    have seeks' : (t.point words).Seeks words low endingBlock minBlocks
        (s.currentBlock + minBlocks) := by
      refine ⟨pointed, by omega, .inr ⟨by omega, by omega, fun many => ?_⟩, ?_⟩
      · have late := seeks.early
        omega
      intro start lower before
      by_cases old : start + s.countedFreeBlocks < s.stopBlock
      · exact seeks.rejected start lower old
      · exact ⟨s.currentBlock, by omega, by omega, used⟩
    have live : (t.point words).Live words (s.currentBlock + minBlocks) :=
      live_point bufferEq sectorEq (by omega)
    refine .onward _ _ ?_ (.walking _ seeks' ⟨live, by omega, .inl (by rw [blockEq'])⟩)
    rw [blockEq', stopEq']
    omega
  · -- The sum wrapped below `stopBlock`, so the loop ends with too few blocks.
    refine .onward _ 0 (by omega) (.giveUp ?_ ?_
      (.inl (seeks.none_left walks.live used (by omega))))
    · rw [point]
      dsimp only
      omega
    · rw [found, point]
      dsimp only
      omega

/-- One turn of the backward loop, from any of its states. -/
theorem Search.Stage.turn (fuel : ℕ) (stage : s.Stage io words low endingBlock minBlocks measure) :
    Turned io words low endingBlock minBlocks fuel measure
      (run io words endingBlock minBlocks (fuel + 1) s) := by
  unfold run
  cases stage with
  | walking lastBlock seeks walks =>
    by_cases ended : s.currentBlock < s.stopBlock
    · rw [if_pos ended]
      exact .ended s (Stage.ended_of_lt bound seeks walks ended)
    rw [if_neg ended]
    have more := not_lt.mp ended
    by_cases clear : bit words s.currentBlock = false
    · rw [if_pos (walks.live.and_eq_zero.mpr clear)]
      by_cases wordEnd : s.countBlock.bitMask = 0#32
      · rw [if_pos wordEnd]
        have first := (walks.live.countBlock bound seeks.sound).1 wordEnd
        by_cases zero : s.currentBlock = 0
        · exact turn_blockZero seeks walks bound zero more clear
        · exact turn_wordEnd seeks walks bound zero first more clear
      · obtain ⟨seeks', walks', back⟩ := walks.countBlock bound seeks more clear wordEnd
        rw [if_neg wordEnd]
        refine .onward _ _ ?_ (.walking lastBlock seeks' walks')
        rw [countBlock_stopBlock]
        omega
    · have position := walks.live.position
      have candidates := seeks.sound.candidates
      have above := seeks.sound.above
      have below := seeks.sound.below
      have few : ¬ s.found ≥ minBlocks := by
        rw [found_eq (by omega)]
        omega
      rw [if_neg (fun free => clear (walks.live.and_eq_zero.mp free)), if_neg few]
      exact turn_used bound seeks walks more (Bool.eq_true_of_not_eq_false clear)
  | passed lastBlock k seeks passed small readable =>
    have reached := seeks.sound.enough_of_stop passed.stop passed.passed
    have fits := seeks.sound.small
    have stop := passed.stop
    rw [if_neg (by omega)]
    by_cases clear : s.tempWord &&& s.bitMask = 0#32
    · obtain ⟨positive, nonzero, passed', sound⟩ := passed.countBlock small seeks.sound clear
      rw [if_pos clear, if_neg nonzero]
      exact .onward _ _ (by omega) (.passed lastBlock (k - 1)
        (seeks.congr sound (by simp) (by simp)) passed' small readable)
    · rw [if_neg clear, found_eq (by omega), if_pos (by omega)]
      refine .ended s (.found lastBlock seeks reached (by omega) ?_ ?_)
      · exact fun reads => reads.2.2.1 readable
      · rintro ⟨-, many, -⟩
        omega
  | giveUp ended few cause =>
    rw [if_pos ended]
    exact .ended s (.full few cause)

/-- Where every bitmap block of the range can be read the loop ends, one way or the other, unless
it walks past block zero. -/
theorem Search.Stage.run (stage : s.Stage io words low endingBlock minBlocks measure)
    (enough : measure + 2 ^ 27 + 2 ≤ fuel) :
    (∃ s', run io words endingBlock minBlocks fuel s = .ok s' ∧
      s'.Ended io words low endingBlock minBlocks) ∨
    ((∃ b < endingBlock, io (b / 4096) ≠ none) ∨ ReadsBefore io words low endingBlock minBlocks) ∧
      ∃ e, run io words endingBlock minBlocks fuel s = .error e := by
  induction fuel generalizing s measure with
  | zero => omega
  | succ fuel ih =>
    have turned := stage.turn bound fuel
    generalize run io words endingBlock minBlocks (fuel + 1) s = outcome at turned
    cases turned with
    | ended s' ended => exact .inl ⟨s', rfl, ended⟩
    | onward t smaller less stage' => exact ih stage' (by omega)
    | blocked e cause =>
      rcases cause with unreadable | reads | short
      · exact .inr ⟨.inl unreadable, e, rfl⟩
      · exact .inr ⟨.inr reads, e, rfl⟩
      · omega

end Turn

/-! ## Extending the range, and the routine -/

section Routine

variable {io : ReadErrors} {words words' : BitmapWords}
  {maxBlocks count endingBlock minBlocks start startingBlock : ℕ}

/-- The forward loop adds free blocks up to `maxBlocks`. -/
theorem extendFound_spec {left currentBlock total : ℕ} {tempWord : BitVec 32}
    {c : Cursor} (stands : c.Stands currentBlock) (temp : tempWord = words c.buffer)
    (more : count < maxBlocks)
    (extended : extendFound io words maxBlocks left currentBlock tempWord c count = .ok total) :
    count ≤ total ∧ total ≤ maxBlocks ∧ total ≤ count + left ∧
      ∀ b, currentBlock ≤ b → b < currentBlock + (total - count) → bit words b = false := by
  induction left generalizing currentBlock tempWord c count with
  | zero =>
    cases extended
    exact ⟨le_rfl, le_of_lt more, le_rfl, fun b _ _ => by omega⟩
  | succ left ih =>
    unfold extendFound at extended
    rw [temp] at extended
    simp only [ne_eq, stands.and_eq_zero words] at extended
    by_cases clear : bit words currentBlock = false
    · rw [if_neg (not_not.mpr clear)] at extended
      by_cases full : count + 1 = maxBlocks
      · rw [if_pos full] at extended
        cases extended
        refine ⟨by omega, by omega, by omega, fun b low high => ?_⟩
        obtain rfl : b = currentBlock := by omega
        exact clear
      rw [if_neg full] at extended
      have advance : ∀ {word : BitVec 32} {c' : Cursor}, c'.Stands (currentBlock + 1) →
          word = words c'.buffer →
          extendFound io words maxBlocks left (currentBlock + 1) word c' (count + 1) = .ok total →
          count ≤ total ∧ total ≤ maxBlocks ∧ total ≤ count + (left + 1) ∧
            ∀ b, currentBlock ≤ b → b < currentBlock + (total - count) →
              bit words b = false := by
        intro word c' stands' temp' rest
        obtain ⟨lower, upper, length, free⟩ := ih stands' temp' (by omega) rest
        refine ⟨by omega, upper, by omega, fun b low high => ?_⟩
        rcases eq_or_lt_of_le low with rfl | above
        · exact clear
        · exact free b above (by omega)
      split_ifs at extended with last
      · split at extended
        · next filled next =>
            exact advance (stands.nextWord last next) rfl extended
        · cases extended
      · exact advance (stands.shift last) rfl extended
    · rw [if_pos clear] at extended
      cases extended
      exact ⟨le_rfl, le_of_lt more, by omega, fun b _ _ => by omega⟩

/-- The search starts with the candidates from `startingBlock` on. -/
theorem Search.start_spec {startingBlock endingBlock minBlocks : ℕ}
    (mem : startingBlock + minBlocks ≤ endingBlock) (positive : 0 < minBlocks)
    (bound : endingBlock < 2 ^ 32) :
    (∃ s measure, Search.start io words startingBlock (startingBlock + minBlocks - 1) = .ok s ∧
      s.Stage io words startingBlock endingBlock minBlocks measure ∧ measure ≤ 2 ^ 34) ∨
    io ((startingBlock + minBlocks - 1) / 4096) ≠ none ∧
      ∃ e, Search.start io words startingBlock (startingBlock + minBlocks - 1) = .error e := by
  unfold Search.start
  cases read : readBitmapBlock io (startingBlock + minBlocks - 1) with
  | error e =>
    right
    refine ⟨?_, e, rfl⟩
    intro readable
    rw [readBitmapBlock, readable] at read
    cases read
  | ok base =>
    left
    have baseEq := readBitmapBlock_ok read
    refine ⟨_, _, rfl, .walking (startingBlock + minBlocks - 1) ⟨⟨?_, ?_, by omega, baseEq, ?_, ?_,
      ?_⟩, positive, .inl ⟨rfl, rfl⟩, ?_⟩ ⟨live_point baseEq rfl (by rfl), ?_, .inl rfl⟩, ?_⟩ <;>
      rw [point] <;> dsimp only
    · omega
    · omega
    · omega
    · exact fun b upper lower => by omega
    · exact fun b upper lower => by omega
    · exact fun start lower before => by omega
    · omega
    · omega

theorem Search.finish_spec {actualStartBlock : ℕ}
    {s : Search} (block : s.currentBlock = actualStartBlock + minBlocks)
    (mem : actualStartBlock + minBlocks ≤ endingBlock) (minMax : minBlocks ≤ maxBlocks)
    (loaded : s.buffer = s.currentSector * 128)
    (free : ∀ b, actualStartBlock ≤ b → b < actualStartBlock + minBlocks → bit words b = false)
    (finished : s.finish io words endingBlock minBlocks maxBlocks actualStartBlock =
      .ok (start, count)) :
    start = actualStartBlock ∧ start + count ≤ endingBlock ∧ minBlocks ≤ count ∧
      count ≤ maxBlocks ∧ ∀ b, start ≤ b → b < start + count → bit words b = false := by
  unfold finish at finished
  rcases @load_spec io s loaded with reload | ⟨-, e, reload⟩
  swap
  · rw [reload] at finished
    obtain ⟨rfl, rfl⟩ := finished
    exact ⟨rfl, mem, le_rfl, minMax, free⟩
  rw [reload] at finished
  dsimp only at finished
  have blockEq : s.reloaded.currentBlock = actualStartBlock + minBlocks := by
    rw [reloaded, ← block]
  have bufferEq : s.reloaded.buffer = s.reloaded.currentBlock / 4096 * 128 := by
    rw [reloaded]
  by_cases extend : minBlocks < maxBlocks
  · rw [if_pos extend] at finished
    split at finished
    · next total extended =>
        simp only [Except.ok.injEq, Prod.mk.injEq] at finished
        obtain ⟨rfl, rfl⟩ := finished
        obtain ⟨lower, upper, length, more⟩ :=
          extendFound_spec (Cursor.stands_at bufferEq) rfl extend extended
        refine ⟨rfl, by omega, lower, upper, fun b low high => ?_⟩
        by_cases early : b < actualStartBlock + minBlocks
        · exact free b low early
        · exact more b (by omega) (by omega)
    · cases finished
  · rw [if_neg extend] at finished
    obtain ⟨rfl, rfl⟩ := finished
    exact ⟨rfl, mem, le_rfl, minMax, free⟩

/-- What `BlockFindContiguous` comes to: the first range that is long enough, from which it looks
further, a full disk, or a read that fails. -/
theorem blockFindContiguous_outcome {startingBlock endingBlock minBlocks maxBlocks : ℕ}
    (order : startingBlock ≤ endingBlock) (bound : endingBlock < 2 ^ 32)
    (positive : 0 < minBlocks) :
    (∃ start, ∃ s : Search, ClearRun words startingBlock endingBlock minBlocks start ∧
      (∀ other, ClearRun words startingBlock endingBlock minBlocks other → start ≤ other) ∧
      ¬ ReadsBefore io words startingBlock endingBlock minBlocks ∧
      ¬ CountWraps words startingBlock endingBlock minBlocks ∧
      s.currentBlock = start + minBlocks ∧ s.buffer = s.currentSector * 128 ∧
      blockFindContiguous io words startingBlock endingBlock minBlocks maxBlocks =
        s.finish io words endingBlock minBlocks maxBlocks start) ∨
    ((∀ start, ¬ ClearRun words startingBlock endingBlock minBlocks start) ∨
        CountWraps words startingBlock endingBlock minBlocks) ∧
      blockFindContiguous io words startingBlock endingBlock minBlocks maxBlocks =
        .error .dskFulErr ∨
    ((∃ b < endingBlock, io (b / 4096) ≠ none) ∨
        ReadsBefore io words startingBlock endingBlock minBlocks) ∧
      ∃ e, blockFindContiguous io words startingBlock endingBlock minBlocks maxBlocks = .error e := by
  have range : (endingBlock + 2 ^ 32 - startingBlock) % 2 ^ 32 = endingBlock - startingBlock := by
    omega
  unfold blockFindContiguous
  rw [range]
  by_cases short : endingBlock - startingBlock < minBlocks
  · rw [if_pos short]
    refine .inr (.inl ⟨.inl fun start run => ?_, rfl⟩)
    have lower := run.lower
    have upper := run.upper
    omega
  have firstBlock : (startingBlock + minBlocks + 2 ^ 32 - 1) % 2 ^ 32 =
      startingBlock + minBlocks - 1 := by
    omega
  rw [if_neg short, firstBlock]
  rcases @Search.start_spec io words startingBlock endingBlock minBlocks (by omega) positive bound
    with ⟨s, measure, started, stage, small⟩ | ⟨lost, e, started⟩
  swap
  · rw [started]
    exact .inr (.inr ⟨.inl ⟨_, by omega, lost⟩, e, rfl⟩)
  rw [started]
  dsimp only
  have fuel : measure + 2 ^ 27 + 2 ≤ searchFuel := by
    rw [searchFuel]
    omega
  generalize searchFuel = iterations at fuel
  rcases stage.run bound fuel with ⟨t, finished, ended⟩ | ⟨cause, e, finished⟩
  swap
  · rw [finished]
    exact .inr (.inr ⟨cause, e, rfl⟩)
  rw [finished]
  dsimp only
  cases ended with
  | full few cause =>
    rw [if_pos few]
    exact .inr (.inl ⟨cause, rfl⟩)
  | found lastBlock seeks enough fits reads counts =>
    have above := seeks.sound.above
    have candidates := seeks.sound.candidates
    have below := seeks.sound.below
    have startEq : t.actualStartBlock = t.stopBlock - t.countedFreeBlocks := by
      rw [actualStartBlock]
      omega
    have endEq : (t.actualStartBlock + minBlocks) % 2 ^ 32 = t.actualStartBlock + minBlocks := by
      omega
    rw [found_eq fits, if_neg (by omega), endEq]
    refine .inl ⟨t.actualStartBlock, _, ?_, ?_, reads, counts, rfl, ?_, rfl⟩
    · rw [startEq]
      exact seeks.sound.clearRun enough
    · intro other run
      have first := seeks.le_start run
      omega
    · exact seeks.sound.loaded

/-- A successful `BlockFindContiguous` reports between `minBlocks` and `maxBlocks` free blocks of
its range. -/
theorem blockFindContiguous_spec
    (order : startingBlock ≤ endingBlock) (bound : endingBlock < 2 ^ 32)
    (positive : 0 < minBlocks) (minMax : minBlocks ≤ maxBlocks)
    (found : blockFindContiguous io words startingBlock endingBlock minBlocks maxBlocks =
      .ok (start, count)) :
    startingBlock ≤ start ∧ start + count ≤ endingBlock ∧ minBlocks ≤ count ∧
      count ≤ maxBlocks ∧ ∀ b, start ≤ b → b < start + count → bit words b = false := by
  rcases @blockFindContiguous_outcome io words startingBlock endingBlock minBlocks maxBlocks order
    bound positive with ⟨first, s, run, -, -, -, block, loaded, result⟩ | ⟨-, result⟩ | ⟨-, e, result⟩
  · rw [result] at found
    obtain ⟨rfl, mem, lower, upper, clear⟩ :=
      finish_spec block run.upper minMax loaded run.free found
    exact ⟨run.lower, mem, lower, upper, clear⟩
  · rw [result] at found
    cases found
  · rw [result] at found
    cases found

theorem retryIfFull_ok {first second : Except AllocErr (ℕ × ℕ)} {found : ℕ × ℕ}
    (retried : retryIfFull first second = .ok found) : first = .ok found ∨ second = .ok found := by
  unfold retryIfFull at retried
  split at retried
  · exact .inr retried
  · cases retried
  · exact .inl retried

theorem markFound_ok {result : Except AllocErr (ℕ × ℕ)} {found : ℕ × ℕ}
    (marked : markFound io words result = (.ok found, words')) :
    result = .ok found ∧ blockMarkAllocated io words found.1 found.2 = (.ok (), words') := by
  cases result with
  | error e => cases congrArg Prod.fst marked
  | ok range =>
    unfold markFound at marked
    dsimp only at marked
    split at marked
    · next returned =>
        cases marked
        exact ⟨rfl, returned⟩
    · cases marked

/-- A successful `BlockAllocateContig` allocates between `minBlocks` and `maxBlocks` blocks of the
volume. -/
theorem blockAllocateContig_spec {totalBlocks : ℕ}
    (order : startingBlock ≤ totalBlocks) (bound : totalBlocks < 2 ^ 32)
    (positive : 0 < minBlocks) (minMax : minBlocks ≤ maxBlocks)
    (allocated : blockAllocateContig io words totalBlocks startingBlock minBlocks maxBlocks =
      (.ok (start, count), words')) :
    Allocated words words' 0 totalBlocks start count ∧ minBlocks ≤ count ∧ count ≤ maxBlocks := by
  rw [blockAllocateContig] at allocated
  obtain ⟨retried, marked⟩ := markFound_ok allocated
  have spec : start + count ≤ totalBlocks ∧ minBlocks ≤ count ∧ count ≤ maxBlocks ∧
      ∀ b, start ≤ b → b < start + count → bit words b = false := by
    rcases retryIfFull_ok retried with near | far
    · exact (blockFindContiguous_spec order bound positive minMax near).2
    · exact (blockFindContiguous_spec (Nat.zero_le _) bound positive minMax far).2
  obtain ⟨mem, lower, upper, free⟩ := spec
  exact ⟨⟨Nat.zero_le _, mem, by omega, free, blockMarkAllocated_spec (by omega) marked⟩,
    lower, upper⟩

end Routine

end Darwin.Hfs