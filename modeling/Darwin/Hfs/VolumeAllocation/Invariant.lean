import Darwin.Hfs.VolumeAllocation.Contiguous

/-!
# The allocator invariant

Over a run of `BlockAllocate` and `BlockDeallocate` calls the free block count of the volume is the
number of clear bits of its bitmap, and the extents handed out are disjoint ranges of the volume.
The search takes the block to start from as it is given, so the results are about calls that start
inside the volume; `blockAllocate_beyond_volume` is a call that does not.

## Main results

* `blockAllocate_spec`, `blockDeallocate_spec` — what one successful call does
* `Run.freeCountExact` — the free count is exact along every run
* `allocator_invariant` — the invariant together with what every further call does
-/

namespace Darwin.Hfs

open Darwin.WordBitmap

/-! ## One call -/

section Call

variable {io : ReadErrors} {vcb vcb' : Vcb}

/-- The block a search starts from: the caller's, or the roving pointer. -/
def Vcb.searchStart (vcb : Vcb) (startingBlock : ℕ) : ℕ :=
  if startingBlock = 0 then vcb.nextAllocation else startingBlock

/-- The free block count is the number of clear bits of the bitmap. -/
def Vcb.FreeCountExact (vcb : Vcb) : Prop :=
  vcb.freeBlocks = clearCount vcb.bitmap vcb.totalBlocks

variable
  {denominator startingBlock start count bytesRequested bytesMaximum firstBlock numBlocks : ℕ}
  {forceContiguous : Bool}

theorem divideAndRoundUp_eq {numerator : ℕ} (positive : 0 < denominator)
    (bound : numerator < 2 ^ 32) :
    divideAndRoundUp numerator denominator = (numerator + denominator - 1) / denominator := by
  unfold divideAndRoundUp
  dsimp only
  have decomposition := Nat.div_add_mod numerator denominator
  have remainder := Nat.mod_lt numerator positive
  have product : numerator / denominator * denominator = denominator * (numerator / denominator) :=
    mul_comm _ _
  rw [Nat.mod_eq_of_lt (lt_of_le_of_lt (Nat.div_mul_le_self _ _) bound)]
  split_ifs with inexact
  · symm
    rw [Nat.div_eq_iff positive]
    constructor
    · rw [add_mul]
      omega
    · rw [add_mul]
      omega
  · symm
    rw [Nat.div_eq_iff positive]
    omega

theorem divideAndRoundUp_pos {numerator denominator : ℕ} (positive : 0 < numerator) :
    0 < divideAndRoundUp numerator denominator := by
  unfold divideAndRoundUp
  dsimp only
  split_ifs with inexact
  · exact Nat.succ_pos _
  rw [not_not] at inexact
  rcases Nat.eq_zero_or_pos (numerator / denominator) with zero | quotient
  · rw [zero] at inexact
    omega
  · exact quotient

theorem divideAndRoundUp_mono {first second : ℕ} (positive : 0 < denominator)
    (order : first ≤ second) (bound : second < 2 ^ 32) :
    divideAndRoundUp first denominator ≤ divideAndRoundUp second denominator := by
  rw [divideAndRoundUp_eq positive (lt_of_le_of_lt order bound), divideAndRoundUp_eq positive bound]
  exact Nat.div_le_div_right (by omega)

@[simp] theorem updateVCBFreeBlks_freeBlocks (vcb : Vcb) :
    (updateVCBFreeBlks vcb).freeBlocks = vcb.freeBlocks := by
  rw [updateVCBFreeBlks]

@[simp] theorem updateVCBFreeBlks_bitmap (vcb : Vcb) :
    (updateVCBFreeBlks vcb).bitmap = vcb.bitmap := by
  rw [updateVCBFreeBlks]

@[simp] theorem updateVCBFreeBlks_totalBlocks (vcb : Vcb) :
    (updateVCBFreeBlks vcb).totalBlocks = vcb.totalBlocks := by
  rw [updateVCBFreeBlks]

/-- Either pass of a non-contiguous allocation hands out blocks of the volume. -/
theorem blockAllocateAround_spec {words words' : BitmapWords} {totalBlocks maxBlocks : ℕ}
    (order : startingBlock ≤ totalBlocks) (bound : totalBlocks < 2 ^ 32) (positive : 0 < maxBlocks)
    (allocated : blockAllocateAround io words totalBlocks startingBlock maxBlocks =
      (.ok (start, count), words')) :
    Allocated words words' 0 totalBlocks start count ∧ count ≤ maxBlocks := by
  unfold blockAllocateAround at allocated
  split at allocated
  · next full =>
      have unchanged := blockAllocateAny_dskFulErr (congrArg Prod.fst full)
      rw [full] at unchanged
      subst unchanged
      obtain ⟨mem, few⟩ := blockAllocateAny_spec (Nat.zero_le _) (by omega) positive allocated
      obtain ⟨lower, upper, nonempty, wasFree, sets⟩ := mem
      exact ⟨⟨lower, by omega, nonempty, wasFree, sets⟩, few⟩
  · cases allocated
  next found =>
    rw [allocated] at found
    obtain ⟨mem, few⟩ := blockAllocateAny_spec order bound positive found
    obtain ⟨lower, upper, nonempty, wasFree, sets⟩ := mem
    exact ⟨⟨Nat.zero_le _, upper, nonempty, wasFree, sets⟩, few⟩

/-- A call of `BlockAllocate` with arguments its callers can give. -/
structure AllocateRequest (startingBlock bytesRequested bytesMaximum : ℕ) : Prop where
  requested : 0 < bytesRequested
  order : bytesRequested ≤ bytesMaximum
  bytesMaximum_lt : bytesMaximum < 2 ^ 32
  startingBlock_lt : startingBlock < 2 ^ 32

/-- What a successful `BlockAllocate` does: it returns a free extent of the volume, of a length
between the bounds asked for, and sets exactly its bits. -/
structure AllocatePost (vcb vcb' : Vcb) (bytesRequested bytesMaximum : ℕ) (forceContiguous : Bool)
    (start count : ℕ) : Prop where
  extent : Allocated vcb.bitmap vcb'.bitmap 0 vcb.totalBlocks start count
  upper : count ≤ (bytesMaximum + vcb.blockSize - 1) / vcb.blockSize
  lower : forceContiguous = true → (bytesRequested + vcb.blockSize - 1) / vcb.blockSize ≤ count
  totalBlocks : vcb'.totalBlocks = vcb.totalBlocks
  freeBlocks : vcb'.freeBlocks = (vcb.freeBlocks + 2 ^ 32 - count) % 2 ^ 32

theorem blockAllocate_spec (request : AllocateRequest startingBlock bytesRequested bytesMaximum)
    (mem : vcb.searchStart startingBlock ≤ vcb.totalBlocks)
    (allocated : blockAllocate io vcb startingBlock bytesRequested bytesMaximum forceContiguous =
      (.ok (start, count), vcb')) :
    AllocatePost vcb vcb' bytesRequested bytesMaximum forceContiguous start count := by
  have block : 0 < vcb.blockSize := lt_of_lt_of_le (by norm_num) vcb.blockSize_ge
  have total := vcb.totalBlocks_lt
  have requestedBound := lt_of_le_of_lt request.order request.bytesMaximum_lt
  have minPositive := @divideAndRoundUp_pos bytesRequested vcb.blockSize request.requested
  have minMax := divideAndRoundUp_mono block request.order request.bytesMaximum_lt
  unfold blockAllocate at allocated
  dsimp only at allocated
  rw [← Vcb.searchStart] at allocated
  split at allocated
  · cases allocated
  split at allocated
  · cases allocated
  split at allocated
  · cases allocated
  next foundStart foundCount words found =>
  obtain ⟨extent, rfl⟩ := Prod.mk.inj allocated
  obtain ⟨rfl, rfl⟩ := Prod.mk.inj (Except.ok.inj extent)
  have outcome : Allocated vcb.bitmap words 0 vcb.totalBlocks foundStart foundCount ∧
      foundCount ≤ divideAndRoundUp bytesMaximum vcb.blockSize ∧ (forceContiguous = true →
        divideAndRoundUp bytesRequested vcb.blockSize ≤ foundCount) := by
    cases forceContiguous with
    | true =>
      rw [if_pos rfl] at found
      obtain ⟨free, least, most⟩ :=
        blockAllocateContig_spec mem total minPositive minMax found
      exact ⟨free, most, fun _ => least⟩
    | false =>
      rw [if_neg Bool.false_ne_true] at found
      obtain ⟨free, most⟩ :=
        blockAllocateAround_spec mem total (lt_of_lt_of_le minPositive minMax) found
      exact ⟨free, most, fun contiguous => by cases contiguous⟩
  obtain ⟨free, most, least⟩ := outcome
  rw [divideAndRoundUp_eq block request.bytesMaximum_lt] at most
  rw [divideAndRoundUp_eq block requestedBound] at least
  refine ⟨?_, most, least, ?_, ?_⟩
  · rw [updateVCBFreeBlks_bitmap]
    exact free
  · rw [updateVCBFreeBlks_totalBlocks]
  · rw [updateVCBFreeBlks_freeBlocks]

theorem AllocatePost.freeCountExact (counted : vcb.FreeCountExact)
    (post : AllocatePost vcb vcb' bytesRequested bytesMaximum forceContiguous start count) :
    vcb'.FreeCountExact := by
  have total := vcb.totalBlocks_lt
  have fewer := post.extent.sets.clearCount_add post.extent.upper post.extent.wasFree
  have most := clearCount_le vcb.bitmap vcb.totalBlocks
  rw [Vcb.FreeCountExact] at counted ⊢
  rw [post.totalBlocks, post.freeBlocks, counted]
  omega

/-- The blocks of a range are blocks of the volume and are allocated. -/
def Vcb.RangeAllocated (vcb : Vcb) (firstBlock numBlocks : ℕ) : Prop :=
  firstBlock + numBlocks ≤ vcb.totalBlocks ∧
    ∀ b, firstBlock ≤ b → b < firstBlock + numBlocks → bit vcb.bitmap b = true

variable (range : vcb.RangeAllocated firstBlock numBlocks)
  (freed : blockDeallocate io vcb firstBlock numBlocks = (.ok (), vcb'))

include range freed

/-- A successful `BlockDeallocate` clears exactly the bits of its range. -/
theorem blockDeallocate_spec :
    ClearsRange vcb.bitmap vcb'.bitmap firstBlock numBlocks ∧ vcb'.totalBlocks = vcb.totalBlocks ∧
      vcb'.freeBlocks = (vcb.freeBlocks + numBlocks) % 2 ^ 32 ∨
    numBlocks = 0 ∧ vcb' = vcb := by
  have total := vcb.totalBlocks_lt
  unfold blockDeallocate at freed
  split at freed
  · next none =>
      obtain ⟨-, rfl⟩ := Prod.mk.inj freed
      exact .inr ⟨none, rfl⟩
  split at freed
  · cases freed
  next words marked =>
  obtain ⟨-, rfl⟩ := Prod.mk.inj freed
  have clears := blockMarkFree_spec (by have := range.1; omega) marked
  refine .inl ⟨?_, ?_, ?_⟩
  · rw [updateVCBFreeBlks_bitmap]
    exact clears
  · rw [updateVCBFreeBlks_totalBlocks]
  · rw [updateVCBFreeBlks_freeBlocks]

theorem blockDeallocate_clears : ClearsRange vcb.bitmap vcb'.bitmap firstBlock numBlocks := by
  rcases blockDeallocate_spec range freed with ⟨clears, -, -⟩ | ⟨rfl, rfl⟩
  · exact clears
  · exact .refl false vcb'.bitmap firstBlock

omit range freed

theorem blockDeallocate_freeCountExact (counted : vcb.FreeCountExact)
    (range : vcb.RangeAllocated firstBlock numBlocks)
    (freed : blockDeallocate io vcb firstBlock numBlocks = (.ok (), vcb')) :
    vcb'.FreeCountExact := by
  rcases blockDeallocate_spec range freed with ⟨clears, total, free⟩ | ⟨-, rfl⟩
  · have bound := vcb.totalBlocks_lt
    have more := clears.clearCount_eq range.1 range.2
    have most := clearCount_le vcb'.bitmap vcb.totalBlocks
    rw [Vcb.FreeCountExact] at counted ⊢
    rw [total, free, counted]
    omega
  · exact counted

end Call

/-! ## Runs -/

section Run

variable {vcb vcb' : Vcb}

/-- A successful call of the allocator: an allocation that starts inside the volume, or the release
of a range that is allocated. -/
inductive Step : Vcb → Vcb → Prop where
  | allocate {vcb vcb' : Vcb} {io : ReadErrors}
      {startingBlock bytesRequested bytesMaximum : ℕ} {forceContiguous : Bool} {extent : ℕ × ℕ}
      (request : AllocateRequest startingBlock bytesRequested bytesMaximum)
      (mem : vcb.searchStart startingBlock ≤ vcb.totalBlocks)
      (allocated : blockAllocate io vcb startingBlock bytesRequested bytesMaximum
        forceContiguous = (.ok extent, vcb')) : Step vcb vcb'
  | deallocate {vcb vcb' : Vcb} {io : ReadErrors} {firstBlock numBlocks : ℕ}
      (range : vcb.RangeAllocated firstBlock numBlocks)
      (freed : blockDeallocate io vcb firstBlock numBlocks = (.ok (), vcb')) : Step vcb vcb'

/-- A finite sequence of successful calls. -/
abbrev Run : Vcb → Vcb → Prop := Relation.ReflTransGen Step

theorem Step.freeCountExact (counted : vcb.FreeCountExact) (step : Step vcb vcb') :
    vcb'.FreeCountExact := by
  cases step with
  | allocate request mem allocated =>
    exact (blockAllocate_spec request mem allocated).freeCountExact counted
  | deallocate range freed => exact blockDeallocate_freeCountExact counted range freed

theorem Run.freeCountExact (counted : vcb.FreeCountExact) (run : Run vcb vcb') :
    vcb'.FreeCountExact := by
  induction run with
  | refl => exact counted
  | tail _ step ih => exact step.freeCountExact ih

/-- `UpdateFreeCount` recomputes the count a volume already has when the count is exact. -/
theorem updateFreeCount_of_exact {io : ReadErrors} (counted : vcb.FreeCountExact)
    (first : io 0 = none) (readable : ∀ block < vcb.totalBlocks, io (block / 4096) = none) :
    (updateFreeCount io vcb).1 = .ok () ∧
      (updateFreeCount io vcb).2.freeBlocks = vcb.freeBlocks := by
  rw [updateFreeCount_spec vcb first readable]
  refine ⟨rfl, ?_⟩
  rw [updateVCBFreeBlks_freeBlocks]
  exact counted.symm

/-- From a volume with an exact free count, along every run of allocations that start inside the
volume and of releases of allocated ranges: the free count stays exact, which is the value
`UpdateFreeCount` recomputes, and the next such call returns and sets, or clears, exactly a range
of the kind asked for. -/
theorem allocator_invariant {start vcb : Vcb} (counted : start.FreeCountExact)
    (run : Run start vcb) :
    vcb.FreeCountExact ∧
    (∀ io : ReadErrors, io 0 = none → (∀ block < vcb.totalBlocks, io (block / 4096) = none) →
      (updateFreeCount io vcb).1 = .ok () ∧
        (updateFreeCount io vcb).2.freeBlocks = vcb.freeBlocks) ∧
    (∀ io vcb' startingBlock bytesRequested bytesMaximum forceContiguous first count,
      AllocateRequest startingBlock bytesRequested bytesMaximum →
      vcb.searchStart startingBlock ≤ vcb.totalBlocks →
      blockAllocate io vcb startingBlock bytesRequested bytesMaximum forceContiguous =
        (.ok (first, count), vcb') →
      AllocatePost vcb vcb' bytesRequested bytesMaximum forceContiguous first count) ∧
    ∀ io vcb' firstBlock numBlocks, vcb.RangeAllocated firstBlock numBlocks →
      blockDeallocate io vcb firstBlock numBlocks = (.ok (), vcb') →
      ClearsRange vcb.bitmap vcb'.bitmap firstBlock numBlocks := by
  have exact := Run.freeCountExact counted run
  refine ⟨exact, ?_, ?_, ?_⟩
  · intro io first readable
    exact updateFreeCount_of_exact exact first readable
  · intro io vcb' startingBlock bytesRequested bytesMaximum forceContiguous first count request
      mem allocated
    exact blockAllocate_spec request mem allocated
  · intro io vcb' firstBlock numBlocks range freed
    exact blockDeallocate_clears range freed

/-- A volume of 100 free blocks of 512 bytes. -/
def emptyVolume : Vcb where
  blockSize := 512
  totalBlocks := 100
  freeBlocks := 100
  nextAllocation := 0
  vcbAlBlkSiz := 512
  vcbFreeBks := 100
  bitmap := fun _ => 0#32
  blockSize_ge := le_rfl
  totalBlocks_lt := by decide

theorem emptyVolume_freeCountExact : emptyVolume.FreeCountExact := by
  rw [Vcb.FreeCountExact]
  decide +kernel

/-- The empty volume after a contiguous allocation of 40 blocks. -/
def partlyUsedVolume : Vcb :=
  (blockAllocate (fun _ => none) emptyVolume 0 20480 20480 true).2

theorem emptyVolume_run : Run emptyVolume partlyUsedVolume := by
  have request : AllocateRequest 0 20480 20480 := ⟨by decide, by decide, by decide, by decide⟩
  have returned : (blockAllocate (fun _ => none) emptyVolume 0 20480 20480 true).1 =
      .ok (0, 40) := by
    decide +kernel
  exact .single (.allocate request (by decide) (Prod.ext returned rfl))

/-- The invariant on a run of one call, and what the next call returns. -/
theorem allocator_invariant_partlyUsed :
    partlyUsedVolume.FreeCountExact ∧
    AllocatePost partlyUsedVolume
      (blockAllocate (fun _ => none) partlyUsedVolume 0 512 1024 false).2 512 1024 false 40 2 := by
  obtain ⟨counted, -, allocates, -⟩ :=
    allocator_invariant emptyVolume_freeCountExact emptyVolume_run
  have request : AllocateRequest 0 512 1024 := ⟨by decide, by decide, by decide, by decide⟩
  have returned : (blockAllocate (fun _ => none) partlyUsedVolume 0 512 1024 false).1 =
      .ok (40, 2) := by
    decide +kernel
  exact ⟨counted, allocates _ _ _ _ _ _ _ _ request (by decide +kernel) (Prod.ext returned rfl)⟩

/-- A search that starts past the end of the volume succeeds there: the extent lies outside the
volume and the free count is no longer exact. -/
theorem blockAllocate_beyond_volume :
    emptyVolume.FreeCountExact ∧ AllocateRequest 200 512 512 ∧
    (blockAllocate (fun _ => none) emptyVolume 200 512 512 true).1 = .ok (200, 1) ∧
    ¬ 200 + 1 ≤ emptyVolume.totalBlocks ∧
    ¬ (blockAllocate (fun _ => none) emptyVolume 200 512 512 true).2.FreeCountExact := by
  have request : AllocateRequest 200 512 512 := ⟨by decide, by decide, by decide, by decide⟩
  refine ⟨emptyVolume_freeCountExact, request, by decide +kernel, by decide, ?_⟩
  rw [Vcb.FreeCountExact]
  decide +kernel

end Run

end Darwin.Hfs
