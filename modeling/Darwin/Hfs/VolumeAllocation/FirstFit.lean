import Darwin.Hfs.VolumeAllocation.Around

/-!
# The first fit of a contiguous search

`BlockFindContiguous` against its specification: it succeeds exactly when the range holds a run of
`minBlocks` free blocks, and then it returns the first one, extended as far as `maxBlocks`, the end
of the range and the bitmap allow.  Three kinds of searches do not meet it: the two that go astray
in the backward loop, and one whose run ends with the volume, where the forward loop reads the
bitmap block past the end before it looks at `endingBlock`.

## Main results

* `blockFindContiguous_firstFit_iff` — the search meets its specification exactly outside of these
-/

namespace Darwin.Hfs

open Darwin.WordBitmap Search

/-! ## The forward loop -/

section Extend

variable {io : ReadErrors} {words : BitmapWords} {maxBlocks left currentBlock count : ℕ}
  {c : Cursor}

/-- The forward loop ends at `maxBlocks`, at the end of the range or at an allocated block. -/
theorem extendFound_ends {total : ℕ} (stands : c.Stands currentBlock) (more : count < maxBlocks)
    (extended : extendFound io words maxBlocks left currentBlock (words c.buffer) c count =
      .ok total) :
    total = maxBlocks ∨ total = count + left ∨
      bit words (currentBlock + (total - count)) = true := by
  induction left generalizing currentBlock c count with
  | zero =>
    cases extended
    exact .inr (.inl rfl)
  | succ left ih =>
    unfold extendFound at extended
    simp only [ne_eq, stands.and_eq_zero words] at extended
    by_cases clear : bit words currentBlock = false
    swap
    · rw [if_pos clear] at extended
      cases extended
      rw [Nat.sub_self]
      exact .inr (.inr (Bool.eq_true_of_not_eq_false clear))
    rw [if_neg (not_not.mpr clear)] at extended
    by_cases full : count + 1 = maxBlocks
    · rw [if_pos full] at extended
      cases extended
      exact .inl full
    rw [if_neg full] at extended
    -- What the rest of the loop ends with, seen from this block.
    have advance : ∀ {c' : Cursor}, c'.Stands (currentBlock + 1) →
        extendFound io words maxBlocks left (currentBlock + 1) (words c'.buffer) c' (count + 1) =
          .ok total →
        total = maxBlocks ∨ total = count + (left + 1) ∨
          bit words (currentBlock + (total - count)) = true := by
      intro c' stands' rest
      have lower := (extendFound_spec stands' rfl (by omega) rest).1
      rcases ih stands' (by omega) rest with atMost | atEnd | used
      · exact .inl atMost
      · exact .inr (.inl (by omega))
      have place : currentBlock + 1 + (total - (count + 1)) = currentBlock + (total - count) := by
        omega
      rw [place] at used
      exact .inr (.inr used)
    split_ifs at extended with last
    · split at extended
      · next filled next => exact advance (stands.nextWord last next) extended
      · cases extended
    · exact advance (stands.shift last) extended

/-- What ends the forward loop over `left` blocks before it has to read past them. -/
def EndsBefore (io : ReadErrors) (words : BitmapWords) (maxBlocks left currentBlock count : ℕ) :
    Prop :=
  (∃ b, currentBlock ≤ b ∧ b < currentBlock + left ∧ bit words b = true) ∨
    maxBlocks ≤ count + left ∨ (currentBlock + left) % 4096 ≠ 0 ∨
      io ((currentBlock + left) / 4096) = none

theorem EndsBefore.next (ends : EndsBefore io words maxBlocks (left + 1) currentBlock count)
    (clear : bit words currentBlock = false) :
    EndsBefore io words maxBlocks left (currentBlock + 1) (count + 1) := by
  have place : currentBlock + 1 + left = currentBlock + (left + 1) := by omega
  have length : count + 1 + left = count + (left + 1) := by omega
  unfold EndsBefore
  rw [place, length]
  rcases ends with ⟨b, lower, upper, used⟩ | ending
  · rcases eq_or_lt_of_le lower with rfl | above
    · rw [clear] at used
      cases used
    · exact .inl ⟨b, above, upper, used⟩
  · exact .inr ending

theorem exists_extendFound (stands : c.Stands currentBlock) (more : count < maxBlocks)
    (readable : ∀ b < currentBlock + left, io (b / 4096) = none)
    (ends : left = 0 ∨ EndsBefore io words maxBlocks left currentBlock count) :
    ∃ total, extendFound io words maxBlocks left currentBlock (words c.buffer) c count =
      .ok total := by
  induction left generalizing currentBlock c count with
  | zero => exact ⟨_, rfl⟩
  | succ left ih =>
    have ends := ends.resolve_left (Nat.succ_ne_zero left)
    have shifted : currentBlock + 1 + left = currentBlock + (left + 1) := by omega
    unfold extendFound
    simp only [ne_eq, stands.and_eq_zero words]
    by_cases clear : bit words currentBlock = false
    swap
    · rw [if_pos clear]
      exact ⟨_, rfl⟩
    rw [if_neg (not_not.mpr clear)]
    by_cases full : count + 1 = maxBlocks
    · rw [if_pos full]
      exact ⟨_, rfl⟩
    rw [if_neg full]
    have rest := ends.next clear
    split_ifs with last
    · have onward : (currentBlock + 1) % 4096 = 0 → io ((currentBlock + 1) / 4096) = none := by
        intro aligned
        rcases Nat.eq_zero_or_pos left with zero | several
        · subst zero
          rcases rest with ⟨b, lower, upper, -⟩ | most | unaligned | lastBlock
          · omega
          · omega
          · exact absurd aligned unaligned
          · exact lastBlock
        · exact readable _ (by omega)
      obtain ⟨c', next⟩ := stands.exists_nextWord last onward
      rw [next]
      exact ih (stands.nextWord last next) (by omega) (shifted ▸ readable) (.inr rest)
    · exact ih (stands.shift last) (by omega) (shifted ▸ readable) (.inr rest)

/-- A forward loop over free blocks up to the end of a bitmap block reads the next one. -/
theorem extendFound_overrun {code : ℕ} (stands : c.Stands currentBlock) (positive : 0 < left)
    (few : count + left < maxBlocks) (readable : ∀ b < currentBlock + left, io (b / 4096) = none)
    (clear : ∀ b, currentBlock ≤ b → b < currentBlock + left → bit words b = false)
    (aligned : (currentBlock + left) % 4096 = 0)
    (unreadable : io ((currentBlock + left) / 4096) = some code) :
    extendFound io words maxBlocks left currentBlock (words c.buffer) c count =
      .error (.ioErr code) := by
  induction left generalizing currentBlock c count with
  | zero => omega
  | succ left ih =>
    have free := clear currentBlock le_rfl (by omega)
    have shifted : currentBlock + 1 + left = currentBlock + (left + 1) := by omega
    unfold extendFound
    simp only [ne_eq, stands.and_eq_zero words]
    rw [if_neg (not_not.mpr free), if_neg (by omega)]
    rcases Nat.eq_zero_or_pos left with zero | several
    · subst zero
      have last : c.bitMask >>> 1 = 0#32 := by
        rw [stands.shift_eq_zero]
        omega
      rw [if_pos last, stands.nextWord_unreadable aligned unreadable]
    · have rest : ∀ {c' : Cursor}, c'.Stands (currentBlock + 1) →
          extendFound io words maxBlocks left (currentBlock + 1) (words c'.buffer) c' (count + 1) =
            .error (.ioErr code) := by
        intro c' stands'
        apply ih stands' several
        · omega
        · rwa [shifted]
        · intro b lower upper
          exact clear b (by omega) (by omega)
        · rwa [shifted]
        · rwa [shifted]
      split_ifs with last
      · obtain ⟨c', next⟩ := stands.exists_nextWord last fun _ => readable _ (by omega)
        rw [next]
        exact rest (stands.nextWord last next)
      · exact rest (stands.shift last)

end Extend

/-! ## The specification -/

section Specification

variable {io : ReadErrors} {words : BitmapWords}
  {totalBlocks startingBlock endingBlock minBlocks maxBlocks start count : ℕ}

/-- `[start, start + count)` is what a first fit search of `[low, high)` returns: it starts where
the first `n` free blocks do, and is as long as the free blocks, `most` and `high` allow. -/
structure FirstFit (words : BitmapWords) (low high n most start count : ℕ) : Prop where
  run : ClearRun words low high n start
  first : ∀ other, ClearRun words low high n other → start ≤ other
  whole : ClearRun words low high count start
  atLeast : n ≤ count
  atMost : count ≤ most
  maximal : count = most ∨ start + count = high ∨ bit words (start + count) = true

/-- `BlockFindContiguous` succeeds exactly when there is a run that is long enough, and then with
the first fit. -/
def FindsFirstFit (io : ReadErrors) (words : BitmapWords)
    (startingBlock endingBlock minBlocks maxBlocks : ℕ) : Prop :=
  ((∃ found, blockFindContiguous io words startingBlock endingBlock minBlocks maxBlocks =
      .ok found) ↔ ∃ start, ClearRun words startingBlock endingBlock minBlocks start) ∧
    ∀ start count, blockFindContiguous io words startingBlock endingBlock minBlocks maxBlocks =
      .ok (start, count) →
      FirstFit words startingBlock endingBlock minBlocks maxBlocks start count

/-- The free blocks from the first run on reach the end of the range, with fewer than `most` blocks
but more than `n`, and the bitmap block that would begin there cannot be read. -/
def ReadsPast (io : ReadErrors) (words : BitmapWords) (low high n most : ℕ) : Prop :=
  high % 4096 = 0 ∧ io (high / 4096) ≠ none ∧ ∃ first, ClearRun words low high n first ∧
      (∀ other, ClearRun words low high n other → first ≤ other) ∧
      ClearRun words low high (high - first) first ∧ first + n < high ∧ high - first < most

/-- The end of a search of which the first range is known. -/
theorem Search.finish_firstFit {s : Search} (mem : endingBlock ≤ totalBlocks)
    (minMax : minBlocks ≤ maxBlocks) (readable : ∀ b < totalBlocks, io (b / 4096) = none)
    (run : ClearRun words startingBlock endingBlock minBlocks start)
    (first : ∀ other, ClearRun words startingBlock endingBlock minBlocks other → start ≤ other)
    (block : s.currentBlock = start + minBlocks) (loaded : s.buffer = s.currentSector * 128)
    (stays : ¬ ReadsPast io words startingBlock endingBlock minBlocks maxBlocks) :
    ∃ count, s.finish io words endingBlock minBlocks maxBlocks start = .ok (start, count) ∧
      FirstFit words startingBlock endingBlock minBlocks maxBlocks start count := by
  have upper := run.upper
  unfold finish
  rcases @load_spec io s loaded with reload | ⟨lost, e, reload⟩
  swap
  · -- Only the bitmap block past the end cannot be read.
    have atEnd : start + minBlocks = endingBlock := by
      by_contra more
      rw [block] at lost
      exact lost (readable _ (by omega))
    rw [reload]
    exact ⟨_, rfl, run, first, run, le_rfl, minMax, .inr (.inl atEnd)⟩
  rw [reload]
  dsimp only
  have blockEq : s.reloaded.currentBlock = start + minBlocks := by
    rw [reloaded, ← block]
  have bufferEq : s.reloaded.buffer = s.reloaded.currentBlock / 4096 * 128 := by
    rw [reloaded]
  by_cases extend : minBlocks < maxBlocks
  swap
  · rw [if_neg extend]
    exact ⟨_, rfl, run, first, run, le_rfl, minMax, .inl (by omega)⟩
  rw [if_pos extend]
  have stands := Cursor.stands_at bufferEq
  have whole : start + minBlocks + (endingBlock - (start + minBlocks)) = endingBlock := by omega
  rw [blockEq] at stands ⊢
  have ends : endingBlock - (start + minBlocks) = 0 ∨
      EndsBefore io words maxBlocks (endingBlock - (start + minBlocks)) (start + minBlocks)
        minBlocks := by
    by_contra runs_on
    simp only [EndsBefore, not_or, not_exists, not_and, not_not, whole] at runs_on
    obtain ⟨several, clear, few, aligned, unreadable⟩ := runs_on
    refine stays ⟨aligned, unreadable, start, run, first, ⟨run.lower, by omega, ?_⟩, by omega,
      by omega⟩
    intro b lower below
    by_cases early : b < start + minBlocks
    · exact run.free b lower early
    · exact Bool.eq_false_of_not_eq_true (clear b (by omega) (by omega))
  obtain ⟨total, extended⟩ := exists_extendFound stands extend
    (fun b below => readable b (by omega)) ends
  obtain ⟨lower, most, length, free⟩ := extendFound_spec stands rfl extend extended
  have maximal := extendFound_ends stands extend extended
  rw [extended]
  refine ⟨total, rfl, run, first, ⟨run.lower, by omega, ?_⟩, lower, most, ?_⟩
  · intro b low high
    by_cases early : b < start + minBlocks
    · exact run.free b low early
    · exact free b (by omega) (by omega)
  · rcases maximal with atMost | atEnd | used
    · exact .inl atMost
    · exact .inr (.inl (by omega))
    · have place : start + minBlocks + (total - minBlocks) = start + total := by omega
      rw [place] at used
      exact .inr (.inr used)

/-- A search whose range runs on to the end of the volume fails with the read past it. -/
theorem Search.finish_readsPast {s : Search} (mem : endingBlock ≤ totalBlocks)
    (readable : ∀ b < totalBlocks, io (b / 4096) = none)
    (run : ClearRun words startingBlock endingBlock minBlocks start)
    (first : ∀ other, ClearRun words startingBlock endingBlock minBlocks other → start ≤ other)
    (block : s.currentBlock = start + minBlocks) (loaded : s.buffer = s.currentSector * 128)
    (past : ReadsPast io words startingBlock endingBlock minBlocks maxBlocks) :
    ∃ e, s.finish io words endingBlock minBlocks maxBlocks start = .error e := by
  obtain ⟨aligned, unreadable, start', run', first', toEnd, several, few⟩ := past
  obtain rfl : start = start' := le_antisymm (first _ run') (first' _ run)
  obtain ⟨code, unreadable⟩ := Option.ne_none_iff_exists'.mp unreadable
  have whole : start + minBlocks + (endingBlock - (start + minBlocks)) = endingBlock := by omega
  unfold finish
  rcases @load_spec io s loaded with reload | ⟨lost, e, reload⟩
  swap
  · rw [block] at lost
    exact absurd (readable _ (by omega)) lost
  have blockEq : s.reloaded.currentBlock = start + minBlocks := by
    rw [reloaded, ← block]
  have bufferEq : s.reloaded.buffer = s.reloaded.currentBlock / 4096 * 128 := by
    rw [reloaded]
  have stands := Cursor.stands_at bufferEq
  rw [blockEq] at stands
  rw [reload]
  dsimp only
  rw [if_pos (by omega), blockEq]
  have fails := @extendFound_overrun io words maxBlocks (endingBlock - (start + minBlocks))
    (start + minBlocks) minBlocks _ code stands (by omega) (by omega)
    (fun b below => readable b (by omega)) (fun b lower upper => toEnd.free b (by omega) (by omega))
    (by rwa [whole]) (by rwa [whole])
  rw [fails]
  exact ⟨_, rfl⟩

/-- With every bitmap block of the volume readable, `BlockFindContiguous` is exact and returns the
first fit unless the search walks past block zero and cannot read there, or its count wraps, or the
run it has found ends with the volume and it reads on. -/
theorem blockFindContiguous_firstFit_iff (order : startingBlock < endingBlock)
    (mem : endingBlock ≤ totalBlocks) (bound : totalBlocks < 2 ^ 32) (positive : 0 < minBlocks)
    (minMax : minBlocks ≤ maxBlocks) (readable : ∀ b < totalBlocks, io (b / 4096) = none) :
    FindsFirstFit io words startingBlock endingBlock minBlocks maxBlocks ↔
      ¬ ReadsBefore io words startingBlock endingBlock minBlocks ∧
      ¬ CountWraps words startingBlock endingBlock minBlocks ∧
      ¬ ReadsPast io words startingBlock endingBlock minBlocks maxBlocks := by
  have outcome := @blockFindContiguous_outcome io words startingBlock endingBlock minBlocks
    maxBlocks order.le (by omega) positive
  unfold FindsFirstFit
  generalize blockFindContiguous io words startingBlock endingBlock minBlocks maxBlocks = result
    at outcome ⊢
  constructor
  · rintro ⟨exact_iff, -⟩
    -- Where there is a run, a search that meets the specification has found the first one.
    have finds : (∃ start, ClearRun words startingBlock endingBlock minBlocks start) →
        ¬ ReadsBefore io words startingBlock endingBlock minBlocks ∧
        ¬ CountWraps words startingBlock endingBlock minBlocks ∧
        ¬ ReadsPast io words startingBlock endingBlock minBlocks maxBlocks := by
      intro some_run
      obtain ⟨found, rfl⟩ := exact_iff.mpr some_run
      rcases outcome with ⟨start, s, run, first, reads, counts, block, loaded, finished⟩ |
        ⟨-, failed⟩ | ⟨-, e, failed⟩
      · refine ⟨reads, counts, fun past => ?_⟩
        obtain ⟨e, failed⟩ := finish_readsPast mem readable run first block loaded past
        rw [failed] at finished
        cases finished
      · cases failed
      · cases failed
    refine ⟨fun reads => ?_, fun wraps => ?_, fun past => ?_⟩
    · exact (finds ⟨0, reads.2.2.2⟩).1 reads
    · exact (finds wraps.2.2.2).2.1 wraps
    · obtain ⟨start, run, -⟩ := past.2.2
      exact (finds ⟨start, run⟩).2.2 past
  · rintro ⟨reads, counts, stays⟩
    rcases outcome with ⟨start, s, run, first, -, -, block, loaded, finished⟩ |
      ⟨none_left | wraps, failed⟩ | ⟨⟨b, below, lost⟩ | before, e, failed⟩
    · obtain ⟨count, found, fit⟩ :=
        finish_firstFit mem minMax readable run first block loaded stays
      rw [found] at finished
      subst finished
      refine ⟨⟨fun _ => ⟨start, run⟩, fun _ => ⟨_, rfl⟩⟩, ?_⟩
      rintro start' count' same
      cases same
      exact fit
    · subst failed
      refine ⟨⟨?_, ?_⟩, ?_⟩
      · rintro ⟨found, same⟩
        cases same
      · rintro ⟨start, run⟩
        exact absurd run (none_left start)
      · intro start count same
        cases same
    · exact absurd wraps counts
    · exact absurd (readable b (by omega)) lost
    · exact absurd before reads

theorem oneBitmapBlock_readable : ∀ b < 100, oneBitmapBlock (b / 4096) = none := by
  intro b onVolume
  have first : b / 4096 = 0 := by omega
  rw [first]
  rfl

theorem blockFindContiguous_firstFit_iff_empty :
    FindsFirstFit oneBitmapBlock (fun _ => 0#32) 10 90 5 20 := by
  refine (blockFindContiguous_firstFit_iff (by decide) (by decide : 90 ≤ 100) (by decide)
    (by decide) (by decide) oneBitmapBlock_readable).mpr ⟨?_, ?_, ?_⟩
  · rintro ⟨zero, -⟩
    cases zero
  · rintro ⟨zero, -⟩
    cases zero
  · rintro ⟨aligned, -⟩
    cases aligned

/-- On an empty volume of 100 blocks a search for eight blocks from block zero on fails, with the
error of a read for block `2 ^ 32 - 1`. -/
theorem blockFindContiguous_reads_before_zero :
    (∀ b < 100, oneBitmapBlock (b / 4096) = none) ∧
    blockFindContiguous oneBitmapBlock (fun _ => 0#32) 0 100 8 8 = .error (.ioErr 5) ∧
    ¬ FindsFirstFit oneBitmapBlock (fun _ => 0#32) 0 100 8 8 := by
  have fails : blockFindContiguous oneBitmapBlock (fun _ => 0#32) 0 100 8 8 =
      .error (.ioErr 5) := by
    decide +kernel
  refine ⟨oneBitmapBlock_readable, fails, ?_⟩
  rintro ⟨exact_iff, -⟩
  have free : ∀ b, bit (fun _ => 0#32) b = false := fun b => BitVec.getMsbD_zero
  obtain ⟨found, same⟩ := exact_iff.mpr ⟨0, by decide, by decide, fun b _ _ => free b⟩
  rw [fails] at same
  cases same

end Specification

end Darwin.Hfs
