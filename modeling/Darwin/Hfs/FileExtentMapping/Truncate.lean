import Darwin.Hfs.FileExtentMapping.Basic

/-!
# Truncating a fork

A model of `TruncateFileC` of `Misc/FileExtentMapping.c` with the routines it calls.  It changes the
bitmap of the volume, the FCB and the extents file, and may fail at each read of the bitmap and at
each access to the extents B-tree.

## Main results

* `truncateFileC_safe_iff`: when an error that comes before any block is freed leaves the fork as it
  was.
-/

namespace Darwin.Hfs

open FileVcb

section Model

/-- The errors that the accesses of a call return: reads of the bitmap, and searches, replacements
and deletions in the extents B-tree. -/
structure TruncateErrors where
  bitmap : ReadErrors
  search : SearchErrors
  replace : SearchErrors
  delete : SearchErrors

/-- The result codes of a truncation. -/
inductive TruncateErr where
  | fileBoundsErr
  | extent (err : ExtentErr)
  | alloc (err : AllocErr)
  deriving DecidableEq, Repr

/-- What a truncation changes.  `freed` tells whether any block was freed so far. -/
structure Truncation where
  vcb : FileVcb
  fcb : Fcb
  freed : Bool

/-- `BlockDeallocate`, as the truncation calls it.  Nothing is freed by a call for no blocks and by
one that cannot read the bitmap block of the first of them. -/
def Truncation.blockDeallocate (io : TruncateErrors) (s : Truncation)
    (firstBlock numBlocks : ℕ) : Except TruncateErr Unit × Truncation :=
  let freed := s.freed || (numBlocks ≠ 0 && (io.bitmap (firstBlock / 4096)).isNone)
  match Darwin.Hfs.blockDeallocate io.bitmap s.vcb.toVcb firstBlock numBlocks with
  | (.error e, vcb) =>
    (.error (.alloc e), { s with vcb := { s.vcb with toVcb := vcb }, freed := freed })
  | (.ok _, vcb) => (.ok (), { s with vcb := { s.vcb with toVcb := vcb }, freed := freed })

/-- The loop of `ReleaseExtents`: how many blocks were released, and whether the last extent was. -/
def Truncation.releaseExtents (io : TruncateErrors) :
    (extents : List Extent) → (released : ℕ) → Truncation →
      Except TruncateErr (ℕ × Bool) × Truncation
  | [], released, s => (.ok (released, false), s)
  | extent :: extents, released, s =>
    if extent.blockCount = 0 then (.ok (released, true), s)
    else
      match s.blockDeallocate io extent.startBlock extent.blockCount with
      | (.error e, s) => (.error e, s)
      | (.ok _, s) => releaseExtents io extents ((released + extent.blockCount) % 2 ^ 32) s

/-- The key of an extent record. -/
def FileVcb.extentKey (vcb : FileVcb) (forkType fileID startBlock : ℕ) : ExtentKey :=
  { fileID := fileID, forkType := forkType, startBlock := vcb.vcbSigWord.keyBlock startBlock }

/-- `DeleteExtentRecord`. -/
def Truncation.deleteExtentRecord (io : TruncateErrors) (s : Truncation)
    (forkType fileID startBlock : ℕ) : Except TruncateErr Unit × Truncation :=
  let key := s.vcb.extentKey forkType fileID startBlock
  match io.delete key with
  | some code => (.error (.extent (.btErr code)), s)
  | none =>
    if s.vcb.extentsFile.any (·.1 = key) then
      (.ok (), { s with
        vcb := { s.vcb with extentsFile := s.vcb.extentsFile.filter (·.1 ≠ key) } })
    else (.error (.extent .btNotFound), s)

/-- The loop of `TruncateExtents`.  Each turn deletes a record of the extents file, so that a number
of turns above that of the records is enough. -/
def Truncation.truncateExtents (io : TruncateErrors) (forkType fileID : ℕ) :
    (turns startBlock : ℕ) → Truncation → Except TruncateErr Unit × Truncation
  | 0, _, s => (.ok (), s)
  | turns + 1, startBlock, s =>
    match s.vcb.findExtentRecord io.search forkType fileID startBlock false with
    | .error .btNotFound => (.ok (), s)
    | .error e => (.error (.extent e), s)
    | .ok (_, extents) =>
      match s.releaseExtents io (extents.take s.vcb.vcbSigWord.density) 0 with
      | (.error e, s) => (.error e, s)
      | (.ok (released, _), s) =>
        match s.deleteExtentRecord io forkType fileID startBlock with
        | (.error e, s) => (.error e, s)
        | (.ok _, s) =>
          truncateExtents io forkType fileID turns ((startBlock + released) % 2 ^ 32) s

/-- `TruncateExtents`. -/
def Truncation.truncateFrom (io : TruncateErrors) (s : Truncation) (startBlock : ℕ) :
    Except TruncateErr Unit × Truncation :=
  s.truncateExtents io s.fcb.forkType s.fcb.fcbFlNm (s.vcb.extentsFile.length + 1) startBlock

/-- `SetFCBExtentRecord`. -/
def Truncation.setFCBExtentRecord (s : Truncation) (record : List Extent) : Truncation :=
  match s.vcb.vcbSigWord with
  | .hfs => { s with fcb := { s.fcb with fcbExtRec := record.take 3 } }
  | .hfsPlus => { s with fcb := { s.fcb with extents := record } }

/-- `UpdateExtentRecord`: in the FCB if there is no key, and else in the extents file. -/
def Truncation.updateExtentRecord (io : TruncateErrors) (s : Truncation) (key : Option ExtentKey)
    (record : List Extent) : Except TruncateErr Unit × Truncation :=
  match key with
  | none => (.ok (), s.setFCBExtentRecord record)
  | some key =>
    match io.search key with
    | some code => (.error (.extent (.btErr code)), s)
    | none =>
      if s.vcb.extentsFile.any (·.1 = key) then
        match io.replace key with
        | some code => (.error (.extent (.btErr code)), s)
        | none =>
          let data := record.take s.vcb.vcbSigWord.density
          let extentsFile :=
            s.vcb.extentsFile.map fun r => if r.1 = key then (key, data) else r
          (.ok (), { s with vcb := { s.vcb with extentsFile := extentsFile } })
      else (.error (.extent .btNotFound), s)

/-- `DeallocateFork`. -/
def Truncation.deallocateFork (io : TruncateErrors) (s : Truncation)
    (catalogExtents : List Extent) : Except TruncateErr Unit × Truncation :=
  match s.releaseExtents io (catalogExtents.take s.vcb.vcbSigWord.density) 0 with
  | (.error e, s) => (.error e, s)
  | (.ok (_, true), s) => (.ok (), s)
  | (.ok (released, false), s) => s.truncateFrom io released

/-- The part of `TruncateFileC` for a new length of 0. -/
def Truncation.truncateAll (io : TruncateErrors) (s : Truncation) :
    Except TruncateErr Unit × Truncation :=
  match s.deallocateFork io (s.vcb.getFCBExtentRecord s.fcb) with
  | (.error e, s) => (.error e, s)
  | (.ok _, s) => (.ok (), s.setFCBExtentRecord (List.replicate 8 .none))

/-- The extents of a record as it is truncated, the next file block to free, and whether the record
was changed. -/
structure RecordState where
  record : List Extent
  nextBlock : ℕ
  extentChanged : Bool

/-- The blocks that an extent has behind the new end, if it is to be shortened. -/
def FileSearch.numBlocks (search : FileSearch) (nextBlock : ℕ) (truncateToExtent : Bool) : ℕ :=
  if truncateToExtent then 0 else (search.endingFABNPlusOne + 2 ^ 32 - nextBlock) % 2 ^ 32

/-- The extent that contains the new end is shortened to end there. -/
def Truncation.shortenExtent (io : TruncateErrors) (s : Truncation) (search : FileSearch)
    (nextBlock : ℕ) (truncateToExtent : Bool) : Except TruncateErr RecordState × Truncation :=
  let extent := search.foundExtentData.getD search.foundExtentIndex .none
  let numBlocks := search.numBlocks nextBlock truncateToExtent
  if numBlocks ≠ 0 then
    let startBlock := (extent.startBlock + extent.blockCount + 2 ^ 32 - numBlocks) % 2 ^ 32
    match s.blockDeallocate io startBlock numBlocks with
    | (.error e, s) => (.error e, s)
    | (.ok _, s) =>
      let blockCount := (extent.blockCount + 2 ^ 32 - numBlocks) % 2 ^ 32
      let kept : Extent :=
        { startBlock := if blockCount = 0 then 0 else extent.startBlock
          blockCount := blockCount }
      (.ok ⟨search.foundExtentData.set search.foundExtentIndex kept, search.endingFABNPlusOne,
        true⟩, s)
  else (.ok ⟨search.foundExtentData, search.endingFABNPlusOne, false⟩, s)

/-- The loop that releases the following extents of the record, from the index on; `count` of them
are left. -/
def Truncation.releaseFollowing (io : TruncateErrors) :
    (count extentIndex : ℕ) → RecordState → Truncation → Except TruncateErr RecordState × Truncation
  | 0, _, r, s => (.ok r, s)
  | count + 1, extentIndex, r, s =>
    let extent := r.record.getD extentIndex .none
    if extent.blockCount = 0 then (.ok r, s)
    else
      match s.blockDeallocate io extent.startBlock extent.blockCount with
      | (.error e, s) => (.error e, s)
      | (.ok _, s) =>
        releaseFollowing io count (extentIndex + 1)
          ⟨r.record.set extentIndex .none, (r.nextBlock + extent.blockCount) % 2 ^ 32, true⟩ s

/-- The part of `TruncateFileC` after the record that contains the new end has been truncated. -/
def Truncation.finish (io : TruncateErrors) (physNumBlocks : ℕ) (key : Option ExtentKey)
    (r : RecordState) (s : Truncation) : Except TruncateErr Unit × Truncation :=
  let updated : Except TruncateErr Unit × Truncation :=
    if r.extentChanged then s.updateExtentRecord io key r.record else (.ok (), s)
  match updated with
  | (.error e, s) => (.error e, s)
  | (.ok _, s) =>
    if r.nextBlock < physNumBlocks then s.truncateFrom io r.nextBlock else (.ok (), s)

/-- The part of `TruncateFileC` for a new length that is not 0. -/
def Truncation.truncateTo (io : TruncateErrors) (s : Truncation) (physNumBlocks nextBlock : ℕ)
    (truncateToExtent : Bool) : Except TruncateErr Unit × Truncation :=
  match s.vcb.searchExtentFile io.search s.fcb (s.fcb.fcbPLen - 1) with
  | .error e => (.error (.extent e), s)
  | .ok search =>
    match s.shortenExtent io search nextBlock truncateToExtent with
    | (.error e, s) => (.error e, s)
    | (.ok r, s) =>
      let extentIndex := search.foundExtentIndex + 1
      match s.releaseFollowing io (s.vcb.vcbSigWord.density - extentIndex) extentIndex r with
      | (.error e, s) => (.error e, s)
      | (.ok r, s) => s.finish io physNumBlocks search.foundExtentKey r

/-- `TruncateFileC`. -/
def truncateFileC (io : TruncateErrors) (vcb : FileVcb) (fcb : Fcb) (peof : ℕ)
    (truncateToExtent : Bool) : Except TruncateErr Unit × Truncation :=
  let physNumBlocks := fcb.fcbPLen / vcb.blockSize
  let nextBlock := divideAndRoundUp peof vcb.blockSize
  let peof := nextBlock * vcb.blockSize % 2 ^ 32
  if peof ≥ 2 ^ 31 then (.error .fileBoundsErr, ⟨vcb, fcb, false⟩)
  else
    let s : Truncation := ⟨vcb, { fcb with fcbPLen := peof }, false⟩
    if peof = 0 then s.truncateAll io else s.truncateTo io physNumBlocks nextBlock truncateToExtent

end Model

section Freed

variable {io : TruncateErrors} {s : Truncation} {extents : List Extent} {key : Option ExtentKey}
  {r : RecordState} {search : FileSearch}
  {firstBlock numBlocks released forkType fileID startBlock turns count extentIndex : ℕ}

namespace Truncation

theorem blockDeallocate_freed (io : TruncateErrors) (firstBlock numBlocks : ℕ)
    (freed : s.freed = true) :
    (s.blockDeallocate io firstBlock numBlocks).2.freed = true := by
  unfold blockDeallocate
  split <;> simp [freed]

/-- A range of blocks is freed, at least in part, or its first bitmap block cannot be read. -/
theorem blockDeallocate_cases (s : Truncation) (io : TruncateErrors) (firstBlock : ℕ)
    (some_blocks : numBlocks ≠ 0) :
    (io.bitmap (firstBlock / 4096) ≠ none ∧
      ∃ e, s.blockDeallocate io firstBlock numBlocks = (.error e, s)) ∨
    (io.bitmap (firstBlock / 4096) = none ∧
      (s.blockDeallocate io firstBlock numBlocks).2.freed = true) := by
  cases unreadable : io.bitmap (firstBlock / 4096) with
  | none =>
    right
    refine ⟨rfl, ?_⟩
    unfold blockDeallocate
    split <;> simp [unreadable, some_blocks]
  | some code =>
    left
    refine ⟨nofun, .alloc (.ioErr code), ?_⟩
    have failed : Darwin.Hfs.blockDeallocate io.bitmap s.vcb.toVcb firstBlock numBlocks =
        (.error (.ioErr code), s.vcb.toVcb) := by
      rw [Darwin.Hfs.blockDeallocate, if_neg some_blocks, blockMarkFree, blockMark,
        readBitmapBlock, unreadable]
    rw [blockDeallocate, failed, unreadable]
    simp

theorem releaseExtents_freed (io : TruncateErrors) (extents : List Extent)
    (released : ℕ) (freed : s.freed = true) :
    (s.releaseExtents io extents released).2.freed = true := by
  induction extents generalizing released s with
  | nil => exact freed
  | cons extent extents ih =>
    rw [releaseExtents]
    split
    · exact freed
    have step := blockDeallocate_freed io extent.startBlock extent.blockCount freed
    split
    · rename_i run
      rw [run] at step
      exact step
    · rename_i run
      rw [run] at step
      exact ih _ step

theorem deleteExtentRecord_freed (io : TruncateErrors)
    (forkType fileID startBlock : ℕ) (freed : s.freed = true) :
    (s.deleteExtentRecord io forkType fileID startBlock).2.freed = true := by
  unfold deleteExtentRecord
  dsimp only
  split
  · exact freed
  · split
    · exact freed
    · exact freed

theorem truncateExtents_freed (freed : s.freed = true) :
    (s.truncateExtents io forkType fileID turns startBlock).2.freed = true := by
  induction turns generalizing startBlock s with
  | zero => exact freed
  | succ turns ih =>
    rw [truncateExtents]
    split
    · exact freed
    · exact freed
    rename_i key extents found
    have release := releaseExtents_freed io (extents.take s.vcb.vcbSigWord.density) 0 freed
    split
    · rename_i run
      rw [run] at release
      exact release
    rename_i run
    rw [run] at release
    have delete := deleteExtentRecord_freed io forkType fileID startBlock release
    split
    · rename_i deleted
      rw [deleted] at delete
      exact delete
    · rename_i deleted
      rw [deleted] at delete
      exact ih delete

theorem setFCBExtentRecord_freed : (s.setFCBExtentRecord extents).freed = s.freed := by
  unfold setFCBExtentRecord
  split <;> rfl

theorem updateExtentRecord_freed (freed : s.freed = true) :
    (s.updateExtentRecord io key extents).2.freed = true := by
  unfold updateExtentRecord
  split
  · rw [setFCBExtentRecord_freed]
    exact freed
  split
  · exact freed
  split
  · split
    · exact freed
    · exact freed
  · exact freed

theorem releaseFollowing_freed (freed : s.freed = true) :
    (s.releaseFollowing io count extentIndex r).2.freed = true := by
  induction count generalizing extentIndex r s with
  | zero => exact freed
  | succ count ih =>
    rw [releaseFollowing]
    split
    · exact freed
    have step := blockDeallocate_freed io (r.record.getD extentIndex .none).startBlock
      (r.record.getD extentIndex .none).blockCount freed
    split
    · rename_i run
      rw [run] at step
      exact step
    · rename_i run
      rw [run] at step
      exact ih step

theorem finish_freed (freed : s.freed = true) :
    (finish io count key r s).2.freed = true := by
  have updated : (if r.extentChanged = true then s.updateExtentRecord io key r.record
      else (.ok (), s)).2.freed = true := by
    split
    · exact updateExtentRecord_freed freed
    · exact freed
  unfold finish
  dsimp only
  split
  · rename_i run
    rw [run] at updated
    exact updated
  rename_i run
  rw [run] at updated
  split
  · exact truncateExtents_freed updated
  · exact updated

end Truncation

end Freed

section Turns

variable {io : TruncateErrors} {s s' : Truncation} {result : Except TruncateErr (ℕ × Bool)}
  {extents : List Extent} {firstBlock numBlocks released forkType fileID startBlock turns : ℕ}

end Turns

section FirstStep

variable {α : Type} {io : TruncateErrors} {s : Truncation} {vcb : FileVcb} {extents : List Extent}
  {key foundKey : ExtentKey} {forkType fileID startBlock turns released : ℕ}

/-- The bitmap block of the first of the blocks to free cannot be read. -/
def TruncateErrors.Unreadable (io : TruncateErrors) (firstBlock : ℕ) : Prop :=
  io.bitmap (firstBlock / 4096) ≠ none

/-- The records of the extents file from a file block on are looked up without success, or the first
extent there cannot be freed, or an empty record there cannot be deleted. -/
def FileVcb.RestFails (vcb : FileVcb) (io : TruncateErrors) (forkType fileID startBlock : ℕ) :
    Prop :=
  match vcb.findExtentRecord io.search forkType fileID startBlock false with
  | .error .btNotFound => False
  | .error _ => True
  | .ok (_, extents) =>
    let first := (extents.take vcb.vcbSigWord.density).headD .none
    if first.blockCount = 0 then io.delete (vcb.extentKey forkType fileID startBlock) ≠ none
    else io.Unreadable first.startBlock

/-- There was no error, or some block has been freed. -/
def Settled (result : Except TruncateErr α × Truncation) : Prop :=
  (∃ a, result.1 = .ok a) ∨ result.2.freed = true

theorem Truncation.releaseExtents_empty (io : TruncateErrors) (s : Truncation) (released : ℕ)
    (empty : (extents.headD .none).blockCount = 0) :
    ∃ last, s.releaseExtents io extents released = (.ok (released, last), s) := by
  cases extents with
  | nil => exact ⟨_, rfl⟩
  | cons extent extents =>
    rw [List.headD_cons] at empty
    refine ⟨true, ?_⟩
    rw [Truncation.releaseExtents, if_pos empty]

theorem Truncation.releaseExtents_unreadable (s : Truncation) (released : ℕ)
    (some_blocks : (extents.headD .none).blockCount ≠ 0)
    (unreadable : io.Unreadable (extents.headD .none).startBlock) :
    ∃ e, s.releaseExtents io extents released = (.error e, s) := by
  cases extents with
  | nil => exact absurd rfl some_blocks
  | cons extent extents =>
    rw [List.headD_cons] at some_blocks unreadable
    rcases s.blockDeallocate_cases io extent.startBlock some_blocks with ⟨_, e, failed⟩ |
      ⟨readable, _⟩
    · refine ⟨e, ?_⟩
      rw [Truncation.releaseExtents, if_neg some_blocks, failed]
    · exact absurd readable unreadable

theorem Truncation.releaseExtents_readable (s : Truncation) (released : ℕ)
    (some_blocks : (extents.headD .none).blockCount ≠ 0)
    (readable : ¬ io.Unreadable (extents.headD .none).startBlock) :
    (s.releaseExtents io extents released).2.freed = true := by
  cases extents with
  | nil => exact absurd rfl some_blocks
  | cons extent extents =>
    rw [List.headD_cons] at some_blocks readable
    rcases s.blockDeallocate_cases io extent.startBlock some_blocks with ⟨unreadable, _⟩ |
      ⟨_, freed⟩
    · exact absurd unreadable readable
    rw [Truncation.releaseExtents, if_neg some_blocks]
    split
    · rename_i run
      rw [run] at freed
      exact freed
    · rename_i run
      rw [run] at freed
      exact releaseExtents_freed io extents _ freed

/-- A record that is found by its own key is in the extents file. -/
theorem findExtentRecord_own
    (found : vcb.findExtentRecord io.search forkType fileID startBlock false =
      .ok (foundKey, extents)) :
    io.search (vcb.extentKey forkType fileID startBlock) = none ∧
      vcb.extentsFile.any (·.1 = vcb.extentKey forkType fileID startBlock) = true := by
  unfold findExtentRecord at found
  dsimp only at found
  split at found
  · cases found
  rename_i no_error
  refine ⟨no_error, ?_⟩
  rw [searchKeyed] at found
  split at found
  · cases found
  rename_i record hit
  split at hit
  · rename_i found_record
    rw [List.any_eq_true]
    have same := List.find?_some found_record
    exact ⟨_, List.mem_of_find?_eq_some found_record, same⟩
  · cases hit

/-- After its deletion a record is not found any more. -/
theorem findExtentRecord_deleted {file : List (ExtentKey × List Extent)}
    (no_error : io.search (vcb.extentKey forkType fileID startBlock) = none) :
    ({ vcb with extentsFile :=
        file.filter (·.1 ≠ vcb.extentKey forkType fileID startBlock) }).findExtentRecord io.search
      forkType fileID startBlock false = .error .btNotFound := by
  have missing : (file.filter (·.1 ≠ vcb.extentKey forkType fileID startBlock)).find?
      (·.1 = vcb.extentKey forkType fileID startBlock) = none := by
    rw [List.find?_eq_none]
    intro record member same
    have other := (List.mem_filter.mp member).2
    simp [same] at other
  unfold findExtentRecord searchKeyed
  dsimp only
  unfold extentKey at no_error missing
  unfold extentKey
  rw [no_error, missing]
  rfl

/-- The release of the rest stops at once if its first step fails. -/
theorem Truncation.truncateExtents_fails (fails : s.vcb.RestFails io forkType fileID startBlock) :
    ∃ e, s.truncateExtents io forkType fileID (turns + 1) startBlock = (.error e, s) := by
  unfold RestFails at fails
  rw [Truncation.truncateExtents]
  split at fails
  · exact fails.elim
  · exact ⟨_, rfl⟩
  rename_i key extents found
  dsimp only at fails ⊢
  split at fails
  case isTrue empty =>
    obtain ⟨last, released⟩ := releaseExtents_empty io s 0 empty
    rw [released]
    dsimp only
    cases unable : io.delete (s.vcb.extentKey forkType fileID startBlock) with
    | none => exact absurd unable fails
    | some code =>
      refine ⟨.extent (.btErr code), ?_⟩
      rw [Truncation.deleteExtentRecord, unable]
  case isFalse some_blocks =>
    obtain ⟨e, failed⟩ := releaseExtents_unreadable s 0 some_blocks fails
    exact ⟨e, by rw [failed]⟩

/-- And else the release ends without an error or has freed something. -/
theorem Truncation.truncateExtents_settled (small : startBlock < 2 ^ 32)
    (begins : ¬ s.vcb.RestFails io forkType fileID startBlock) :
    Settled (s.truncateExtents io forkType fileID (turns + 1) startBlock) := by
  unfold RestFails at begins
  rw [Truncation.truncateExtents]
  split at begins
  · exact .inl ⟨(), rfl⟩
  · exact absurd trivial begins
  rename_i key extents found
  have ⟨no_error, own⟩ := findExtentRecord_own found
  dsimp only at begins ⊢
  split at begins
  case isTrue empty =>
    obtain ⟨last, released⟩ := releaseExtents_empty io s 0 empty
    rw [released]
    dsimp only
    have able := not_not.mp begins
    rw [Truncation.deleteExtentRecord]
    rw [able]
    rw [if_pos own]
    dsimp only
    -- The record was empty, so that the next turn looks for the same one.
    rw [add_zero, Nat.mod_eq_of_lt small]
    cases turns with
    | zero => exact .inl ⟨(), rfl⟩
    | succ turns =>
      rw [Truncation.truncateExtents]
      rw [findExtentRecord_deleted no_error]
      exact .inl ⟨(), rfl⟩
  case isFalse some_blocks =>
    have freed := releaseExtents_readable s 0 some_blocks begins
    right
    split
    · rename_i run
      rw [run] at freed
      exact freed
    rename_i run
    rw [run] at freed
    have delete := deleteExtentRecord_freed io forkType fileID startBlock freed
    split
    · rename_i deleted
      rw [deleted] at delete
      exact delete
    · rename_i deleted
      rw [deleted] at delete
      exact truncateExtents_freed delete

end FirstStep

section Safe

variable {io : TruncateErrors} {s : Truncation} {vcb : FileVcb} {fcb : Fcb} {r : RecordState}
  {search : FileSearch} {key : Option ExtentKey}
  {peof nextBlock physNumBlocks count extentIndex : ℕ} {truncateToExtent : Bool}

/-- The first step of a truncation to length 0 fails. -/
def FileVcb.AllFails (vcb : FileVcb) (io : TruncateErrors) (fcb : Fcb) : Prop :=
  let record := (vcb.getFCBExtentRecord fcb).take vcb.vcbSigWord.density
  if record = [] then vcb.RestFails io fcb.forkType fcb.fcbFlNm 0
  else (record.headD .none).blockCount ≠ 0 ∧ io.Unreadable (record.headD .none).startBlock

/-- The extent behind the one that was found, in a record of so many extents. -/
def FileSearch.next (search : FileSearch) (density : ℕ) : Extent :=
  if density - (search.foundExtentIndex + 1) = 0 then .none
  else search.foundExtentData.getD (search.foundExtentIndex + 1) .none

/-- The first of the blocks to free cannot be freed, once the last extent to keep is found, or there
are none in its record and the rest fails. -/
def FileVcb.KeptFails (vcb : FileVcb) (io : TruncateErrors) (fcb : Fcb) (search : FileSearch)
    (physNumBlocks nextBlock : ℕ) (truncateToExtent : Bool) : Prop :=
  let extent := search.foundExtentData.getD search.foundExtentIndex .none
  let numBlocks := search.numBlocks nextBlock truncateToExtent
  let next := search.next vcb.vcbSigWord.density
  if numBlocks ≠ 0 then
    io.Unreadable ((extent.startBlock + extent.blockCount + 2 ^ 32 - numBlocks) % 2 ^ 32)
  else if next.blockCount ≠ 0 then io.Unreadable next.startBlock
  else search.endingFABNPlusOne < physNumBlocks ∧
    vcb.RestFails io fcb.forkType fcb.fcbFlNm search.endingFABNPlusOne

/-- The new length, which is a whole number of blocks. -/
def FileVcb.newLength (vcb : FileVcb) (peof : ℕ) : ℕ :=
  divideAndRoundUp peof vcb.blockSize * vcb.blockSize % 2 ^ 32

/-- The first step of a truncation fails: the search for the last extent to keep, or the first step
of what follows. -/
def FileVcb.FirstStepFails (vcb : FileVcb) (io : TruncateErrors) (fcb : Fcb) (peof : ℕ)
    (truncateToExtent : Bool) : Prop :=
  if vcb.newLength peof = 0 then vcb.AllFails io fcb
  else
    match vcb.searchExtentFile io.search fcb (vcb.newLength peof - 1) with
    | .error _ => True
    | .ok search =>
      vcb.KeptFails io fcb search (fcb.fcbPLen / vcb.blockSize)
        (divideAndRoundUp peof vcb.blockSize) truncateToExtent

namespace Truncation

theorem releaseFollowing_empty
    (empty : count = 0 ∨ (r.record.getD extentIndex .none).blockCount = 0) :
    s.releaseFollowing io count extentIndex r = (.ok r, s) := by
  cases count with
  | zero => rfl
  | succ count =>
    rw [releaseFollowing, if_pos (empty.resolve_left (Nat.succ_ne_zero _))]

theorem releaseFollowing_unreadable (io : TruncateErrors) (s : Truncation)
    (r : RecordState) (some_left : count ≠ 0)
    (some_blocks : (r.record.getD extentIndex .none).blockCount ≠ 0)
    (unreadable : io.Unreadable (r.record.getD extentIndex .none).startBlock) :
    ∃ e, s.releaseFollowing io count extentIndex r = (.error e, s) := by
  cases count with
  | zero => exact absurd rfl some_left
  | succ count =>
    rcases s.blockDeallocate_cases io (r.record.getD extentIndex .none).startBlock some_blocks with
      ⟨_, e, failed⟩ | ⟨readable, _⟩
    · refine ⟨e, ?_⟩
      rw [releaseFollowing, if_neg some_blocks, failed]
    · exact absurd readable unreadable

theorem releaseFollowing_readable (io : TruncateErrors) (s : Truncation)
    (r : RecordState) (some_left : count ≠ 0)
    (some_blocks : (r.record.getD extentIndex .none).blockCount ≠ 0)
    (readable : ¬ io.Unreadable (r.record.getD extentIndex .none).startBlock) :
    (s.releaseFollowing io count extentIndex r).2.freed = true := by
  cases count with
  | zero => exact absurd rfl some_left
  | succ count =>
    rcases s.blockDeallocate_cases io (r.record.getD extentIndex .none).startBlock some_blocks with
      ⟨unreadable, _⟩ | ⟨_, freed⟩
    · exact absurd unreadable readable
    rw [releaseFollowing, if_neg some_blocks]
    split
    · rename_i run
      rw [run] at freed
      exact freed
    · rename_i run
      rw [run] at freed
      exact releaseFollowing_freed freed

theorem truncateAll_fails (fails : s.vcb.AllFails io s.fcb) :
    ∃ e, s.truncateAll io = (.error e, s) := by
  have stopped : ∃ e, s.deallocateFork io (s.vcb.getFCBExtentRecord s.fcb) = (.error e, s) := by
    unfold AllFails at fails
    dsimp only at fails
    rw [deallocateFork]
    split at fails
    case isTrue empty =>
      rw [empty, releaseExtents]
      exact truncateExtents_fails fails
    case isFalse =>
      obtain ⟨e, failed⟩ := releaseExtents_unreadable s 0 fails.1 fails.2
      exact ⟨e, by rw [failed]⟩
  obtain ⟨e, failed⟩ := stopped
  exact ⟨e, by rw [truncateAll, failed]⟩

theorem truncateAll_settled (begins : ¬ s.vcb.AllFails io s.fcb) :
    Settled (s.truncateAll io) := by
  have settled : Settled (s.deallocateFork io (s.vcb.getFCBExtentRecord s.fcb)) := by
    unfold AllFails at begins
    dsimp only at begins
    rw [deallocateFork]
    split at begins
    case isTrue empty =>
      rw [empty, releaseExtents]
      exact truncateExtents_settled (by omega) begins
    case isFalse some_extents =>
      generalize (s.vcb.getFCBExtentRecord s.fcb).take s.vcb.vcbSigWord.density = record at *
      by_cases empty : (record.headD .none).blockCount = 0
      · obtain ⟨extent, extents, rfl⟩ := List.exists_cons_of_ne_nil some_extents
        rw [List.headD_cons] at empty
        rw [releaseExtents, if_pos empty]
        exact .inl ⟨(), rfl⟩
      · have readable := not_and.mp begins empty
        have freed := releaseExtents_readable s 0 empty readable
        right
        split
        · rename_i run
          rw [run] at freed
          exact freed
        · rename_i run
          rw [run] at freed
          exact freed
        · rename_i run
          rw [run] at freed
          exact truncateExtents_freed freed
  rw [truncateAll]
  split
  · rename_i run
    rw [run] at settled
    rcases settled with ⟨a, ok⟩ | freed
    · cases ok
    · exact .inr freed
  · exact .inl ⟨(), rfl⟩

theorem shortenExtent_none
    (none_behind : search.numBlocks nextBlock truncateToExtent = 0) :
    s.shortenExtent io search nextBlock truncateToExtent =
      (.ok ⟨search.foundExtentData, search.endingFABNPlusOne, false⟩, s) := by
  unfold shortenExtent
  rw [none_behind, if_neg (not_not_intro rfl)]

theorem shortenExtent_some (extent : Extent) (start : ℕ)
    (found : extent = search.foundExtentData.getD search.foundExtentIndex .none)
    (start_eq : start = (extent.startBlock + extent.blockCount + 2 ^ 32 -
      search.numBlocks nextBlock truncateToExtent) % 2 ^ 32)
    (some_behind : search.numBlocks nextBlock truncateToExtent ≠ 0) :
    (io.Unreadable start ∧
      ∃ e, s.shortenExtent io search nextBlock truncateToExtent = (.error e, s)) ∨
    (¬ io.Unreadable start ∧
      (s.shortenExtent io search nextBlock truncateToExtent).2.freed = true) := by
  unfold shortenExtent
  dsimp only
  rw [if_pos some_behind, ← found, ← start_eq]
  rcases s.blockDeallocate_cases io start some_behind with ⟨unreadable, e, failed⟩ |
    ⟨readable, freed⟩
  · left
    refine ⟨unreadable, e, ?_⟩
    rw [failed]
  right
  refine ⟨not_not_intro readable, ?_⟩
  split
  · rename_i run
    rw [run] at freed
    exact freed
  · rename_i run
    rw [run] at freed
    exact freed

end Truncation

theorem searchExtents_ending {searchFABN ending : ℕ} {extents : List Extent} {index : ℕ}
    (found : (searchExtents searchFABN extents index ending).found = true) :
    (searchExtents searchFABN extents index ending).endingFABNPlusOne < 2 ^ 32 := by
  induction extents generalizing index ending with
  | nil => cases found
  | cons extent extents ih =>
    rw [searchExtents] at found ⊢
    by_cases empty : extent.blockCount = 0
    · rw [if_pos empty] at found
      cases found
    rw [if_neg empty] at found ⊢
    by_cases mem : searchFABN < (ending + extent.blockCount) % 2 ^ 32
    · rw [if_pos mem]
      exact Nat.mod_lt _ (Nat.two_pow_pos 32)
    · rw [if_neg mem] at found ⊢
      exact ih found

theorem searchExtentFile_ending {filePosition : ℕ} {errors : SearchErrors}
    (found : vcb.searchExtentFile errors fcb filePosition = .ok search) :
    search.endingFABNPlusOne < 2 ^ 32 := by
  unfold searchExtentFile at found
  dsimp only at found
  split at found
  · rename_i resident
    cases found
    exact searchExtents_ending resident
  split at found
  · cases found
  split at found
  · cases found
  · cases found
  split at found
  · rename_i overflow
    cases found
    exact searchExtents_ending overflow
  · cases found

/-- A record that was not changed is not written. -/
theorem Truncation.finish_unchanged (record : List Extent) :
    Truncation.finish io physNumBlocks key ⟨record, nextBlock, false⟩ s =
      if nextBlock < physNumBlocks then s.truncateFrom io nextBlock else (.ok (), s) := rfl

theorem Extent.none_empty : ¬ Extent.none.blockCount ≠ 0 := not_not_intro rfl

variable (found : s.vcb.searchExtentFile io.search s.fcb (s.fcb.fcbPLen - 1) = .ok search)

include found

/-- What follows the search stops at once if its first step fails. -/
theorem Truncation.truncateTo_fails
    (fails : s.vcb.KeptFails io s.fcb search physNumBlocks nextBlock truncateToExtent) :
    ∃ e, s.truncateTo io physNumBlocks nextBlock truncateToExtent = (.error e, s) := by
  unfold KeptFails at fails
  rw [Truncation.truncateTo, found]
  dsimp only at fails ⊢
  by_cases none_behind : search.numBlocks nextBlock truncateToExtent = 0
  · rw [if_neg (not_not_intro none_behind)] at fails
    rw [shortenExtent_none none_behind]
    dsimp only
    unfold FileSearch.next at fails
    by_cases last : s.vcb.vcbSigWord.density - (search.foundExtentIndex + 1) = 0
    · rw [if_pos last, if_neg Extent.none_empty] at fails
      rw [releaseFollowing_empty (.inl last)]
      dsimp only
      rw [finish_unchanged, if_pos fails.1]
      exact truncateExtents_fails fails.2
    · rw [if_neg last] at fails
      split at fails
      case isTrue some_blocks =>
        obtain ⟨e, failed⟩ := releaseFollowing_unreadable io s
          ⟨search.foundExtentData, search.endingFABNPlusOne, false⟩ last some_blocks fails
        exact ⟨e, by rw [failed]⟩
      case isFalse empty =>
        rw [releaseFollowing_empty (.inr (not_not.mp empty))]
        dsimp only
        rw [finish_unchanged, if_pos fails.1]
        exact truncateExtents_fails fails.2
  · rw [if_pos none_behind] at fails
    rcases s.shortenExtent_some _ _ rfl rfl none_behind with ⟨_, e, failed⟩ | ⟨readable, _⟩
    · exact ⟨e, by rw [failed]⟩
    · exact absurd fails readable

/-- And else the truncation ends without an error or has freed something. -/
theorem Truncation.truncateTo_settled
    (begins : ¬ s.vcb.KeptFails io s.fcb search physNumBlocks nextBlock truncateToExtent) :
    Settled (s.truncateTo io physNumBlocks nextBlock truncateToExtent) := by
  have small := searchExtentFile_ending found
  unfold KeptFails at begins
  rw [Truncation.truncateTo, found]
  dsimp only at begins ⊢
  -- Nothing to free in the record: the rest is what remains.
  have rest : ¬ (search.endingFABNPlusOne < physNumBlocks ∧
      s.vcb.RestFails io s.fcb.forkType s.fcb.fcbFlNm search.endingFABNPlusOne) →
      Settled (Truncation.finish io physNumBlocks search.foundExtentKey
        ⟨search.foundExtentData, search.endingFABNPlusOne, false⟩ s) := by
    intro begins
    rw [finish_unchanged]
    by_cases more : search.endingFABNPlusOne < physNumBlocks
    · rw [if_pos more]
      exact truncateExtents_settled small (not_and.mp begins more)
    · rw [if_neg more]
      exact .inl ⟨(), rfl⟩
  by_cases none_behind : search.numBlocks nextBlock truncateToExtent = 0
  · rw [if_neg (not_not_intro none_behind)] at begins
    rw [shortenExtent_none none_behind]
    dsimp only
    unfold FileSearch.next at begins
    by_cases last : s.vcb.vcbSigWord.density - (search.foundExtentIndex + 1) = 0
    · rw [if_pos last, if_neg Extent.none_empty] at begins
      rw [releaseFollowing_empty (.inl last)]
      exact rest begins
    rw [if_neg last] at begins
    split at begins
    case isTrue some_blocks =>
      have freed := releaseFollowing_readable io s
        ⟨search.foundExtentData, search.endingFABNPlusOne, false⟩ last some_blocks begins
      right
      split
      · rename_i run
        rw [run] at freed
        exact freed
      · rename_i run
        rw [run] at freed
        exact finish_freed freed
    case isFalse empty =>
      rw [releaseFollowing_empty (.inr (not_not.mp empty))]
      exact rest begins
  · rw [if_pos none_behind] at begins
    rcases s.shortenExtent_some _ _ rfl rfl none_behind with ⟨unreadable, _⟩ | ⟨_, freed⟩
    · exact absurd unreadable begins
    right
    split
    · rename_i run
      rw [run] at freed
      exact freed
    rename_i r s' run
    rw [run] at freed
    have following : (s'.releaseFollowing io
        (s'.vcb.vcbSigWord.density - (search.foundExtentIndex + 1))
        (search.foundExtentIndex + 1) r).2.freed = true := releaseFollowing_freed freed
    split
    · rename_i released
      rw [released] at following
      exact following
    · rename_i released
      rw [released] at following
      exact finish_freed following

omit found

/-- An error that comes before any block is freed leaves the length of the fork, its extents in the
FCB and the extents file as they were. -/
def SafeError (vcb : FileVcb) (fcb : Fcb) (result : Except TruncateErr Unit × Truncation) : Prop :=
  (∃ e, result.1 = .error e) → result.2.freed = false →
    result.2.fcb = fcb ∧ result.2.vcb.extentsFile = vcb.extentsFile

theorem safeError_of_settled {result : Except TruncateErr Unit × Truncation}
    (settled : Settled result) : SafeError vcb fcb result := by
  rintro ⟨e, error⟩ not_freed
  rcases settled with ⟨a, ok⟩ | freed
  · rw [ok] at error
    cases error
  · rw [freed] at not_freed
    cases not_freed

/-- What a truncation does whose new length is below 2 GB: it stops at its first step, with the new
length in the FCB, or is settled. -/
theorem truncateFileC_cases (io : TruncateErrors) (fcb : Fcb) (truncateToExtent : Bool)
    (below : vcb.newLength peof < 2 ^ 31) :
    (vcb.FirstStepFails io fcb peof truncateToExtent ∧
      ∃ e, truncateFileC io vcb fcb peof truncateToExtent =
        (.error e, ⟨vcb, { fcb with fcbPLen := vcb.newLength peof }, false⟩)) ∨
    (¬ vcb.FirstStepFails io fcb peof truncateToExtent ∧
      Settled (truncateFileC io vcb fcb peof truncateToExtent)) := by
  have call : truncateFileC io vcb fcb peof truncateToExtent =
      if vcb.newLength peof = 0 then
        Truncation.truncateAll io ⟨vcb, { fcb with fcbPLen := vcb.newLength peof }, false⟩
      else
        Truncation.truncateTo io ⟨vcb, { fcb with fcbPLen := vcb.newLength peof }, false⟩
          (fcb.fcbPLen / vcb.blockSize) (divideAndRoundUp peof vcb.blockSize) truncateToExtent := by
    rw [truncateFileC]
    exact if_neg below.not_ge
  rw [call]
  unfold FirstStepFails
  by_cases all : vcb.newLength peof = 0
  · rw [if_pos all, if_pos all]
    by_cases fails : vcb.AllFails io fcb
    · exact .inl ⟨fails, Truncation.truncateAll_fails fails⟩
    · exact .inr ⟨fails, Truncation.truncateAll_settled fails⟩
  · rw [if_neg all, if_neg all]
    cases found : vcb.searchExtentFile io.search fcb (vcb.newLength peof - 1) with
    | error e =>
      left
      refine ⟨trivial, .extent e, ?_⟩
      have found : vcb.searchExtentFile io.search { fcb with fcbPLen := vcb.newLength peof }
          (vcb.newLength peof - 1) = .error e := found
      rw [Truncation.truncateTo, found]
    | ok search =>
      by_cases fails : vcb.KeptFails io fcb search (fcb.fcbPLen / vcb.blockSize)
          (divideAndRoundUp peof vcb.blockSize) truncateToExtent
      · exact .inl ⟨fails, Truncation.truncateTo_fails found fails⟩
      · exact .inr ⟨fails, Truncation.truncateTo_settled found fails⟩

/-- `TruncateFileC` is safe exactly if the new length is 2 GB or more, or the length that the fork
has, or the first step does not fail: otherwise the FCB keeps the new length with an error. -/
theorem truncateFileC_safe_iff (io : TruncateErrors) (vcb : FileVcb) (fcb : Fcb) (peof : ℕ)
    (truncateToExtent : Bool) :
    SafeError vcb fcb (truncateFileC io vcb fcb peof truncateToExtent) ↔
      2 ^ 31 ≤ vcb.newLength peof ∨ vcb.newLength peof = fcb.fcbPLen ∨
        ¬ vcb.FirstStepFails io fcb peof truncateToExtent := by
  rcases lt_or_ge (vcb.newLength peof) (2 ^ 31) with below | above
  · rcases truncateFileC_cases io fcb truncateToExtent below with
      ⟨fails, e, stopped⟩ | ⟨begins, settled⟩
    · rw [stopped]
      constructor
      · intro safe
        have same := (safe ⟨e, rfl⟩ rfl).1
        exact .inr (.inl (congrArg Fcb.fcbPLen same))
      rintro (above | same | begins) _ _
      · omega
      · rw [same]
        exact ⟨rfl, rfl⟩
      · exact absurd fails begins
    · exact ⟨fun _ => .inr (.inr begins), fun _ => safeError_of_settled settled⟩
  · constructor
    · exact fun _ => .inl above
    intro _ _ _
    have rejected : truncateFileC io vcb fcb peof truncateToExtent =
        (.error .fileBoundsErr, ⟨vcb, fcb, false⟩) := by
      rw [truncateFileC]
      exact if_pos above
    rw [rejected]
    exact ⟨rfl, rfl⟩

theorem shortVolume_large : 512 ≤ 4096 := by decide

theorem shortVolume_few : 1000 < 2 ^ 32 := by decide

/-- An HFS Plus volume with a fork of two blocks. -/
def shortVolume : FileVcb where
  blockSize := 4096
  totalBlocks := 1000
  freeBlocks := 998
  nextAllocation := 0
  vcbAlBlkSiz := 4096
  vcbFreeBks := 998
  bitmap := fun i => if i = 0 then 0xC0000000#32 else 0#32
  blockSize_ge := shortVolume_large
  totalBlocks_lt := shortVolume_few
  vcbSigWord := .hfsPlus
  vcbAlBlSt := 16
  extentsFile := []

/-- The FCB of that fork. -/
def shortFcb : Fcb where
  fcbFlNm := 16
  resource := false
  fcbPLen := 8192
  fcbExtRec := []
  extents := ⟨0, 2⟩ :: List.replicate 7 .none

/-- A request for ten blocks fails, and the FCB says that the fork has ten. -/
theorem truncateFileC_beyond_end : ¬ ∀ io vcb fcb peof truncateToExtent,
    SafeError vcb fcb (truncateFileC io vcb fcb peof truncateToExtent) := by
  intro safe
  have unchanged := safe ⟨fun _ => none, fun _ => none, fun _ => none, fun _ => none⟩ shortVolume
    shortFcb 40960 false ⟨.extent .fxRangeErr, by decide⟩ (by decide)
  have same := congrArg Fcb.fcbPLen unchanged.1
  revert same
  decide

end Safe

end Darwin.Hfs
