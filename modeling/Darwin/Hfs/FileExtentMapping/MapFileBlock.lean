import Darwin.Hfs.FileExtentMapping.Basic

/-!
# Mapping a file block

The extents of a fork, in the order of the file, map its blocks to blocks of the volume.
`MapFileBlockC` computes this mapping, by a walk through the extents in the FCB and, where that
fails, by a search of the extents file.

## Main results

- `mapFileBlockC_eq`: `MapFileBlockC` returns the sector and the contiguous bytes that the extents of
  the fork give.
- `mapFileBlockC_injective`: no two bytes of files are at one place of the device.
-/

namespace Darwin.Hfs

open List FileVcb

/-! ## The extents of a fork -/

section ForkExtents

/-- The extents of a record: those before the first empty one. -/
def SigWord.usedExtents (sigWord : SigWord) (record : List Extent) : List Extent :=
  (record.take sigWord.density).takeWhile (·.blockCount ≠ 0)

/-- The number of blocks in some extents. -/
def blockSum (extents : List Extent) : ℕ := (extents.map Extent.blockCount).sum

@[simp] theorem blockSum_nil : blockSum [] = 0 := rfl

@[simp] theorem blockSum_cons (extent : Extent) (extents : List Extent) :
    blockSum (extent :: extents) = extent.blockCount + blockSum extents := by
  simp [blockSum]

@[simp] theorem blockSum_append (l₁ l₂ : List Extent) :
    blockSum (l₁ ++ l₂) = blockSum l₁ + blockSum l₂ := by
  simp [blockSum]

variable (vcb : FileVcb) (fcb : Fcb)

/-- The extents in the FCB. -/
def FileVcb.residentExtents : List Extent :=
  vcb.vcbSigWord.usedExtents (vcb.getFCBExtentRecord fcb)

/-- The records of the extents file that belong to a fork. -/
def FileVcb.ownRecords : List (ExtentKey × List Extent) :=
  vcb.extentsFile.filter fun record =>
    record.1.fileID = fcb.fcbFlNm ∧ record.1.forkType = fcb.forkType

/-- The extents in a record of the extents file. -/
def FileVcb.recordExtents (record : ExtentKey × List Extent) : List Extent :=
  vcb.vcbSigWord.usedExtents (vcb.vcbSigWord.readRecord record.2)

/-- The extents of a fork: those in the FCB, then those in its records of the extents file. -/
def FileVcb.forkExtents : List Extent :=
  vcb.residentExtents fcb ++ (vcb.ownRecords fcb).flatMap vcb.recordExtents

/-- The records are keyed by the running block count. -/
def FileVcb.Keyed : (start : ℕ) → (records : List (ExtentKey × List Extent)) → Prop
  | _, [] => True
  | start, record :: records =>
    record.1.startBlock = start ∧
      Keyed (start + blockSum (vcb.recordExtents record)) records

/-- A fork as the volume keeps it. -/
structure FileVcb.WellFormedFork : Prop where
  sorted : vcb.extentsFile.Pairwise fun a b => a.1.before b.1 = true
  keyed : vcb.Keyed (blockSum (vcb.residentExtents fcb)) (vcb.ownRecords fcb)
  /-- Extents overflow to the extents file when the record in the FCB is full. -/
  overflow : vcb.ownRecords fcb ≠ [] → (vcb.residentExtents fcb).length = vcb.vcbSigWord.density
  onVolume : blockSum (vcb.forkExtents fcb) ≤ vcb.totalBlocks
  /-- The block numbers of HFS have 16 bits. -/
  narrow : vcb.vcbSigWord = .hfs → vcb.totalBlocks < 2 ^ 16

/-- The extent of a list that maps a file block, after the extents `pre`. -/
structure Maps (extents : List Extent) (block : ℕ) (pre : List Extent) (extent : Extent) : Prop where
  position : ∃ post, extents = pre ++ extent :: post
  low : blockSum pre ≤ block
  high : block < blockSum pre + extent.blockCount

/-- A list maps a block by one extent only. -/
theorem Maps.unique {extents pre pre' : List Extent} {block : ℕ} {extent extent' : Extent}
    (maps : Maps extents block pre extent) (maps' : Maps extents block pre' extent') :
    pre = pre' ∧ extent = extent' := by
  obtain ⟨⟨post, rfl⟩, low, high⟩ := maps
  obtain ⟨⟨post', same⟩, low', high'⟩ := maps'
  induction pre generalizing pre' block with
  | nil =>
    cases pre' with
    | nil => exact ⟨rfl, (List.cons.inj same).1⟩
    | cons first rest =>
      obtain ⟨rfl, -⟩ := List.cons.inj same
      simp only [blockSum_nil, blockSum_cons] at *
      omega
  | cons first rest ih =>
    cases pre' with
    | nil =>
      obtain ⟨rfl, -⟩ := List.cons.inj same
      simp only [blockSum_nil, blockSum_cons] at *
      omega
    | cons first' rest' =>
      obtain ⟨rfl, tails⟩ := List.cons.inj same
      simp only [blockSum_cons] at low high low' high'
      have ⟨equal, extents⟩ := @ih rest' (block - first.blockCount) (by omega) (by omega)
        (by omega) (by omega) tails
      exact ⟨by rw [equal], extents⟩

theorem Maps.le_blockSum {extents pre : List Extent} {block : ℕ} {extent : Extent}
    (maps : Maps extents block pre extent) :
    blockSum pre + extent.blockCount ≤ blockSum extents := by
  obtain ⟨post, rfl⟩ := maps.position
  rw [blockSum_append, blockSum_cons]
  omega

theorem Maps.append_left {extents pre : List Extent} {block : ℕ} {extent : Extent}
    (maps : Maps extents block pre extent) (l : List Extent) :
    Maps (l ++ extents) (blockSum l + block) (l ++ pre) extent := by
  obtain ⟨⟨post, rfl⟩, low, high⟩ := maps
  constructor
  case position => exact ⟨post, by simp⟩
  case low =>
    rw [blockSum_append]
    omega
  case high =>
    rw [blockSum_append]
    omega

theorem Maps.append_right {extents pre : List Extent} {block : ℕ} {extent : Extent}
    (maps : Maps extents block pre extent) (l : List Extent) :
    Maps (extents ++ l) block pre extent := by
  obtain ⟨⟨post, rfl⟩, low, high⟩ := maps
  exact ⟨⟨post ++ l, by simp⟩, low, high⟩

end ForkExtents

/-! ## The walks through a record -/

section Walks

/-- The loop of `SearchExtentRecord`: it finds the extent that maps the block, or the record ends
before it. -/
theorem searchExtents_spec {searchFABN : ℕ} {record : List Extent} {ending : ℕ} (index : ℕ)
    (small : ending + blockSum (record.takeWhile (·.blockCount ≠ 0)) < 2 ^ 32)
    (reached : ending ≤ searchFABN) :
    (∃ pre extent, Maps (record.takeWhile (·.blockCount ≠ 0)) (searchFABN - ending) pre extent ∧
      searchExtents searchFABN record index ending =
        { found := true, foundExtentIndex := index + pre.length,
          endingFABNPlusOne := ending + blockSum pre + extent.blockCount,
          noMoreExtents := false }) ∨
    (ending + blockSum (record.takeWhile (·.blockCount ≠ 0)) ≤ searchFABN ∧
      (searchExtents searchFABN record index ending).found = false ∧
      ((searchExtents searchFABN record index ending).noMoreExtents = true →
        (record.takeWhile (·.blockCount ≠ 0)).length < record.length)) := by
  induction record generalizing index ending with
  | nil => exact .inr ⟨by simpa using reached, rfl, fun more => by cases more⟩
  | cons extent record ih =>
    rw [searchExtents]
    by_cases empty : extent.blockCount = 0
    · rw [if_pos empty, takeWhile_cons_of_neg (by simp [empty])]
      refine .inr ⟨by simpa using reached, rfl, fun _ => ?_⟩
      simp
    rw [takeWhile_cons_of_pos (by simp [empty]), blockSum_cons] at small
    have noWrap : ending + extent.blockCount < 2 ^ 32 := by omega
    rw [if_neg empty, takeWhile_cons_of_pos (by simp [empty]), Nat.mod_eq_of_lt noWrap]
    split_ifs with here
    · refine .inl ⟨[], extent, ⟨⟨_, rfl⟩, Nat.zero_le _, ?_⟩, ?_⟩
      · rw [blockSum_nil]
        omega
      · simp
    · rcases @ih (ending + extent.blockCount) (index + 1) (by omega) (by omega) with
        ⟨pre, e, maps, run⟩ | ⟨past, run⟩
      · refine .inl ⟨extent :: pre, e, ?_, ?_⟩
        · have further := maps.append_left [extent]
          have shift : blockSum [extent] + (searchFABN - (ending + extent.blockCount)) =
              searchFABN - ending := by
            simp only [blockSum_cons, blockSum_nil]
            omega
          rw [shift] at further
          exact further
        · rw [run]
          simp only [length_cons, blockSum_cons]
          congr 1
          · omega
          · omega
      · rw [blockSum_cons]
        refine .inr ⟨by omega, run.1, fun more => ?_⟩
        have shorter := run.2 more
        simp only [length_cons]
        omega

/-- The loop of `MapFileBlockFromFCB`. -/
theorem walkExtents_spec {width : ℕ} {record : List Extent} {offsetBlocks currentFABN : ℕ}
    (small : currentFABN + blockSum (record.takeWhile (·.blockCount ≠ 0)) < 2 ^ width) :
    (∃ pre extent, Maps (record.takeWhile (·.blockCount ≠ 0)) offsetBlocks pre extent ∧
      walkExtents width record offsetBlocks currentFABN =
        some (currentFABN + blockSum pre, extent.startBlock,
          currentFABN + blockSum pre + extent.blockCount)) ∨
    (blockSum (record.takeWhile (·.blockCount ≠ 0)) ≤ offsetBlocks ∧
      walkExtents width record offsetBlocks currentFABN = none) := by
  induction record generalizing offsetBlocks currentFABN with
  | nil => exact .inr ⟨Nat.zero_le _, rfl⟩
  | cons extent record ih =>
    rw [walkExtents]
    by_cases empty : extent.blockCount = 0
    · rw [if_pos empty, takeWhile_cons_of_neg (by simp [empty])]
      exact .inr ⟨Nat.zero_le _, rfl⟩
    rw [takeWhile_cons_of_pos (by simp [empty]), blockSum_cons] at small
    have noWrap : currentFABN + extent.blockCount < 2 ^ width := by omega
    rw [if_neg empty, takeWhile_cons_of_pos (by simp [empty]), Nat.mod_eq_of_lt noWrap]
    split_ifs with here
    · refine .inl ⟨[], extent, ⟨⟨_, rfl⟩, Nat.zero_le _, ?_⟩, ?_⟩
      · rw [blockSum_nil]
        omega
      · simp
    · rcases @ih (offsetBlocks - extent.blockCount) (currentFABN + extent.blockCount)
        (by omega) with ⟨pre, e, maps, run⟩ | ⟨past, run⟩
      · refine .inl ⟨extent :: pre, e, ?_, ?_⟩
        · have further := maps.append_left [extent]
          have shift : blockSum [extent] + (offsetBlocks - extent.blockCount) =
              offsetBlocks := by
            simp only [blockSum_cons, blockSum_nil]
            omega
          rw [shift] at further
          exact further
        · rw [run, blockSum_cons]
          simp only [Option.some.injEq, Prod.mk.injEq, true_and]
          omega
      · rw [blockSum_cons]
        exact .inr ⟨by omega, run⟩

end Walks

/-! ## The search of the extents file -/

section FileSearch

variable {vcb : FileVcb} {fcb : Fcb}

theorem before_iff (a b : ExtentKey) :
    a.before b = true ↔ a.fileID < b.fileID ∨ a.fileID = b.fileID ∧
      (a.forkType < b.forkType ∨ a.forkType = b.forkType ∧ a.startBlock < b.startBlock) := by
  unfold ExtentKey.before
  split_ifs with file fork
  · simp only [decide_eq_true_eq]
    omega
  · simp only [decide_eq_true_eq]
    omega
  · simp only [decide_eq_true_eq]
    omega

theorem not_before_of_before {a b : ExtentKey} (earlier : a.before b = true) :
    ¬ (b = a ∨ b.before a = true) := by
  rintro (rfl | later)
  · rw [before_iff] at earlier
    omega
  · rw [before_iff] at earlier later
    omega

/-- In a file in key order, a search that may return the previous record returns the last record that
does not come after the key. -/
theorem searchKeyed_eq {file : List (ExtentKey × List Extent)} {key : ExtentKey}
    {record : ExtentKey × List Extent} (sorted : file.Pairwise fun a b => a.1.before b.1 = true)
    (member : record ∈ file) (notAfter : record.1 = key ∨ record.1.before key = true)
    (last : ∀ other ∈ file, other.1 = key ∨ other.1.before key = true →
      other = record ∨ other.1.before record.1 = true) :
    searchKeyed file key true = some record := by
  unfold searchKeyed
  cases exact : file.find? (·.1 = key) with
  | some other =>
    have same : other.1 = key := by simpa using List.find?_some exact
    rcases last other (mem_of_find?_eq_some exact) (.inl same) with rfl | earlier
    · rfl
    · rw [same] at earlier
      exact absurd notAfter (not_before_of_before earlier)
  | none =>
    have earlier : record.1.before key = true := by
      refine notAfter.resolve_left fun same => ?_
      have none := List.find?_eq_none.mp exact record member
      simp [same] at none
    have mem : record ∈ file.filter (·.1.before key) := mem_filter.mpr ⟨member, earlier⟩
    have ordered := sorted.filter (·.1.before key)
    rcases eq_nil_or_concat (file.filter (·.1.before key)) with empty | ⟨init, x, whole⟩
    · rw [empty] at mem
      cases mem
    rw [concat_eq_append] at whole
    rw [whole, List.getLast?_append_of_ne_nil _ (by simp)]
    have lastInside : x ∈ file.filter (·.1.before key) := by rw [whole]; simp
    have ⟨inFile, before⟩ := mem_filter.mp lastInside
    rcases last x inFile (.inr before) with rfl | earlier'
    · rfl
    -- The record would stand before the last one, and after it in key order.
    rw [whole] at mem ordered
    rcases mem_append.mp mem with front | back
    · have later := (pairwise_append.mp ordered).2.2 record front x (by simp)
      exact absurd (.inr later) (not_before_of_before earlier')
    · rw [mem_singleton.mp back] at earlier'
      exact absurd (.inl rfl) (not_before_of_before earlier')

variable {start : ℕ} {records : List (ExtentKey × List Extent)} {io : SearchErrors}

theorem FileVcb.Keyed.le_startBlock
    (keyed : vcb.Keyed start records) : ∀ record ∈ records, start ≤ record.1.startBlock := by
  induction records generalizing start with
  | nil =>
    intro record mem
    cases mem
  | cons first records ih =>
    intro record mem
    have ⟨here, rest⟩ := keyed
    rcases mem_cons.mp mem with rfl | mem
    · exact here.symm.le
    · have later := ih rest record mem
      omega

/-- Where a block lies in the records of a fork: in the one that is the last not keyed after it. -/
theorem FileVcb.Keyed.exists_record {block : ℕ}
    (keyed : vcb.Keyed start records) (low : start ≤ block)
    (high : block < start + blockSum (records.flatMap vcb.recordExtents)) :
    ∃ front record back, records = front ++ record :: back ∧
      record.1.startBlock = start + blockSum (front.flatMap vcb.recordExtents) ∧
      record.1.startBlock ≤ block ∧
      block < record.1.startBlock + blockSum (vcb.recordExtents record) ∧
      ∀ other ∈ records, other.1.startBlock ≤ block →
        other.1.startBlock ≤ record.1.startBlock := by
  induction records generalizing start with
  | nil =>
    simp only [flatMap_nil, blockSum_nil] at high
    omega
  | cons first records ih =>
    have ⟨here, rest⟩ := keyed
    rw [flatMap_cons, blockSum_append] at high
    by_cases mem : block < start + blockSum (vcb.recordExtents first)
    · refine ⟨[], first, records, rfl, ?_, by omega, by omega, ?_⟩
      · simpa using here
      intro other member low'
      rcases mem_cons.mp member with rfl | member
      · exact le_rfl
      · have later := rest.le_startBlock other member
        omega
    · have ⟨front, record, back, split, key, low', high', last⟩ :=
        ih rest (by omega) (by omega)
      refine ⟨first :: front, record, back, by rw [split]; rfl, ?_, low', high', ?_⟩
      · rw [key, flatMap_cons, blockSum_append]
        omega
      intro other member lower
      rcases mem_cons.mp member with rfl | member
      · omega
      · exact last other member lower

theorem ordered_cases
    {a b : ExtentKey × List Extent} (sorted : records.Pairwise fun a b => a.1.before b.1 = true)
    (left : a ∈ records) (right : b ∈ records) :
    a = b ∨ a.1.before b.1 = true ∨ b.1.before a.1 = true := by
  induction sorted with
  | nil => cases left
  | cons first _ ih =>
    rcases mem_cons.mp left with rfl | leftRest
    · rcases mem_cons.mp right with rfl | rightRest
      · exact .inl rfl
      · exact .inr (.inl (first b rightRest))
    · rcases mem_cons.mp right with rfl | rightRest
      · exact .inr (.inr (first a leftRest))
      · exact ih leftRest rightRest

/-- The records of a fork are found by the file blocks they map. -/
theorem findExtentRecord_spec {block : ℕ} (wellFormed : vcb.WellFormedFork fcb)
    (readable : ∀ key, io key = none)
    (low : blockSum (vcb.residentExtents fcb) ≤ block)
    (high : block < blockSum (vcb.forkExtents fcb)) :
    ∃ front record back, vcb.ownRecords fcb = front ++ record :: back ∧ record.1.startBlock =
        blockSum (vcb.residentExtents fcb) + blockSum (front.flatMap vcb.recordExtents) ∧
      record.1.startBlock ≤ block ∧
      block < record.1.startBlock + blockSum (vcb.recordExtents record) ∧
      vcb.findExtentRecord io fcb.forkType fcb.fcbFlNm block true =
        .ok (record.1, vcb.vcbSigWord.readRecord record.2) := by
  have total : block < blockSum (vcb.residentExtents fcb) +
      blockSum ((vcb.ownRecords fcb).flatMap vcb.recordExtents) := by
    rw [← blockSum_append]
    exact high
  have ⟨front, record, back, split, key, low', high', last⟩ :=
    wellFormed.keyed.exists_record low total
  refine ⟨front, record, back, split, key, low', high', ?_⟩
  have own : record ∈ vcb.ownRecords fcb := by rw [split]; simp
  have ⟨inFile, fork⟩ := mem_filter.mp own
  have ⟨file, type⟩ : record.1.fileID = fcb.fcbFlNm ∧ record.1.forkType = fcb.forkType := by
    simpa using fork
  -- The block number is not cut off in the key of HFS.
  have whole : vcb.vcbSigWord.keyBlock block = block := by
    have onVolume := wellFormed.onVolume
    cases sig : vcb.vcbSigWord with
    | hfs =>
      have narrow := wellFormed.narrow sig
      exact Nat.mod_eq_of_lt (by omega)
    | hfsPlus => rfl
  have found : searchKeyed vcb.extentsFile
      { fileID := fcb.fcbFlNm, forkType := fcb.forkType, startBlock := block } true =
      some record := by
    refine searchKeyed_eq wellFormed.sorted inFile ?_ ?_
    · rw [before_iff]
      rcases eq_or_lt_of_le low' with same | earlier
      · left
        rw [← file, ← type, ← same]
      · right
        exact .inr ⟨file, .inr ⟨type, earlier⟩⟩
    · intro other mem notAfter
      by_cases sameFork : other.1.fileID = fcb.fcbFlNm ∧ other.1.forkType = fcb.forkType
      · have lower : other.1.startBlock ≤ block := by
          rcases notAfter with same | earlier
          · rw [same]
          · rw [before_iff] at earlier
            simp only at earlier
            omega
        have mine : other ∈ vcb.ownRecords fcb :=
          mem_filter.mpr ⟨mem, by simpa using sameFork⟩
        have notLater := last other mine lower
        rcases ordered_cases wellFormed.sorted mem inFile with same | earlier | later
        · exact .inl same
        · exact .inr earlier
        · rw [before_iff] at later
          omega
      · right
        rcases notAfter with same | earlier
        · rw [same] at sameFork
          exact absurd ⟨rfl, rfl⟩ sameFork
        · rw [before_iff] at earlier ⊢
          simp only at earlier
          omega
  unfold findExtentRecord
  simp only [readable, whole, found, file, type, and_self, if_true]

theorem getD_of_usedExtents {sigWord : SigWord} {record pre post : List Extent} {extent : Extent}
    (used : sigWord.usedExtents record = pre ++ extent :: post) :
    record.getD pre.length .none = extent := by
  have ⟨rest, taken⟩ : sigWord.usedExtents record <+: record.take sigWord.density :=
    takeWhile_prefix _
  have ⟨rest', whole⟩ := take_prefix sigWord.density record
  unfold SigWord.usedExtents at used
  rw [← whole, ← taken, used]
  simp

/-- `SearchExtentRecord` on a record whose first block is not after the one searched for. -/
theorem searchExtentRecord_spec {searchFABN : ℕ} {record : List Extent}
    (small : start + blockSum (vcb.vcbSigWord.usedExtents record) < 2 ^ 32)
    (reached : start ≤ searchFABN) :
    (∃ pre extent, Maps (vcb.vcbSigWord.usedExtents record) (searchFABN - start) pre extent ∧
      vcb.searchExtentRecord searchFABN record start =
        { found := true, foundExtentIndex := 0 + pre.length,
          endingFABNPlusOne := start + blockSum pre + extent.blockCount,
          noMoreExtents := false }) ∨
    (start + blockSum (vcb.vcbSigWord.usedExtents record) ≤ searchFABN ∧
      (vcb.searchExtentRecord searchFABN record start).found = false ∧
      ((vcb.searchExtentRecord searchFABN record start).noMoreExtents = true →
        (vcb.vcbSigWord.usedExtents record).length < vcb.vcbSigWord.density)) := by
  rcases searchExtents_spec 0 small reached with found | ⟨past, missed, full⟩
  · exact .inl found
  · refine .inr ⟨past, missed, fun more => lt_of_lt_of_le (full more) ?_⟩
    exact length_take_le _ _

/-- `SearchExtentFile` finds the extent that maps a block of the fork. -/
theorem searchExtentFile_spec {offset : ℕ} (wellFormed : vcb.WellFormedFork fcb)
    (readable : ∀ key, io key = none)
    (mapped : offset / vcb.blockSize < blockSum (vcb.forkExtents fcb)) :
    ∃ pre extent search, Maps (vcb.forkExtents fcb) (offset / vcb.blockSize) pre extent ∧
      vcb.searchExtentFile io fcb offset = .ok search ∧
      search.endingFABNPlusOne = blockSum pre + extent.blockCount ∧
      search.foundExtentData.getD search.foundExtentIndex .none = extent := by
  have onVolume := wellFormed.onVolume
  have narrow := vcb.totalBlocks_lt
  have parts : blockSum (vcb.forkExtents fcb) = blockSum (vcb.residentExtents fcb) +
      blockSum ((vcb.ownRecords fcb).flatMap vcb.recordExtents) := by
    rw [← blockSum_append]
    rfl
  have resident : 0 + blockSum (vcb.residentExtents fcb) < 2 ^ 32 := by omega
  unfold searchExtentFile
  dsimp only
  rcases searchExtentRecord_spec resident (Nat.zero_le (offset / vcb.blockSize)) with
    ⟨pre, extent, maps, run⟩ | ⟨past, missed, full⟩
  · rw [run]
    obtain ⟨post, used⟩ := maps.position
    refine ⟨pre, extent, _, ?_, if_pos rfl, ?_, ?_⟩
    · exact maps.append_right _
    · simp only
      omega
    · simp only [zero_add]
      exact getD_of_usedExtents used
  · have outside : blockSum (vcb.residentExtents fcb) ≤ offset / vcb.blockSize := by
      rw [zero_add] at past
      exact past
    have some : vcb.ownRecords fcb ≠ [] := by
      intro none
      rw [none, flatMap_nil, blockSum_nil] at parts
      omega
    have more : (vcb.searchExtentRecord (offset / vcb.blockSize) (vcb.getFCBExtentRecord fcb)
        0).noMoreExtents ≠ true := by
      intro noMore
      exact ne_of_lt (full noMore) (wellFormed.overflow some)
    have ⟨front, record, back, split, key, low, high, found⟩ :=
      findExtentRecord_spec wellFormed readable outside mapped
    have flat : (vcb.ownRecords fcb).flatMap vcb.recordExtents = front.flatMap vcb.recordExtents ++
          (vcb.recordExtents record ++ back.flatMap vcb.recordExtents) := by
      rw [split, flatMap_append, flatMap_cons]
    rw [flat, blockSum_append, blockSum_append] at parts
    have small : record.1.startBlock + blockSum (vcb.recordExtents record) < 2 ^ 32 := by omega
    rw [if_neg (by rw [missed]; exact Bool.false_ne_true), if_neg more, found]
    dsimp only
    rcases searchExtentRecord_spec small low with ⟨pre, extent, maps, run⟩ | ⟨past', _, _⟩
    · rw [run]
      obtain ⟨post, used⟩ := maps.position
      have inFork := (Maps.append_right maps (back.flatMap vcb.recordExtents)).append_left
        (vcb.residentExtents fcb ++ front.flatMap vcb.recordExtents)
      rw [← recordExtents] at inFork
      have list : vcb.residentExtents fcb ++ front.flatMap vcb.recordExtents ++
          (vcb.recordExtents record ++ back.flatMap vcb.recordExtents) = vcb.forkExtents fcb := by
        rw [forkExtents, flat, append_assoc]
      have block : blockSum (vcb.residentExtents fcb ++ front.flatMap vcb.recordExtents) +
          (offset / vcb.blockSize - record.1.startBlock) = offset / vcb.blockSize := by
        rw [blockSum_append, ← key]
        omega
      rw [list, block] at inFork
      refine ⟨_, extent, _, inFork, if_pos rfl, ?_, ?_⟩
      · simp only [blockSum_append]
        omega
      · simp only [zero_add]
        exact getD_of_usedExtents used
    · rw [← recordExtents] at past'
      omega

end FileSearch

/-! ## The mapping -/

section Mapping

variable {vcb : FileVcb} {fcb : Fcb}

/-- The record of HFS maps the same blocks with and without the empty extents. -/
theorem usedExtents_readRecord (record : List Extent) :
    SigWord.hfs.usedExtents (SigWord.hfs.readRecord record) = SigWord.hfs.usedExtents record := by
  rcases record with _ | ⟨a, _ | ⟨b, _ | ⟨c, rest⟩⟩⟩
  all_goals
    simp [SigWord.usedExtents, SigWord.readRecord, extDataRecToExtents, SigWord.density,
      List.takeWhile, Extent.none]

variable (wellFormed : vcb.WellFormedFork fcb)

include wellFormed

/-- `MapFileBlockFromFCB` finds the extent in the FCB that maps a block, if there is one. -/
theorem mapFileBlockFromFCB_spec (offset : ℕ) :
    (∃ pre extent, Maps (vcb.residentExtents fcb) (offset / vcb.blockSize) pre extent ∧
      vcb.mapFileBlockFromFCB fcb offset =
        some (blockSum pre, extent.startBlock, blockSum pre + extent.blockCount)) ∨
    vcb.mapFileBlockFromFCB fcb offset = none := by
  have onVolume := wellFormed.onVolume
  have narrow := vcb.totalBlocks_lt
  have parts : blockSum (vcb.residentExtents fcb) ≤ blockSum (vcb.forkExtents fcb) := by
    rw [forkExtents, blockSum_append]
    exact Nat.le_add_right _ _
  unfold mapFileBlockFromFCB
  cases sig : vcb.vcbSigWord with
  | hfs =>
    have same : vcb.residentExtents fcb = SigWord.hfs.usedExtents fcb.fcbExtRec := by
      rw [residentExtents, getFCBExtentRecord, sig, usedExtents_readRecord]
    have small : 0 + blockSum (SigWord.hfs.usedExtents fcb.fcbExtRec) < 2 ^ 16 := by
      have bound := wellFormed.narrow sig
      rw [← same]
      omega
    rcases @walkExtents_spec _ _ (offset / vcb.blockSize) 0 small with
      ⟨pre, extent, maps, run⟩ | ⟨_, run⟩
    · rw [same]
      rw [zero_add] at run
      exact .inl ⟨pre, extent, maps, run⟩
    · exact .inr run
  | hfsPlus =>
    have same : vcb.residentExtents fcb = SigWord.hfsPlus.usedExtents fcb.extents := by
      rw [residentExtents, getFCBExtentRecord, sig]
      rfl
    have small : 0 + blockSum (SigWord.hfsPlus.usedExtents fcb.extents) < 2 ^ 32 := by
      rw [← same]
      omega
    rcases @walkExtents_spec _ _ (offset / vcb.blockSize) 0 small with
      ⟨pre, extent, maps, run⟩ | ⟨_, run⟩
    · rw [same]
      rw [zero_add] at run
      exact .inl ⟨pre, extent, maps, run⟩
    · exact .inr run

/-- The two lookups give the same extent where both succeed. -/
theorem lookups_agree {io : SearchErrors} {position : ℕ} {found : ℕ × ℕ × ℕ} {search : FileSearch}
    (readable : ∀ key, io key = none) (fast : vcb.mapFileBlockFromFCB fcb position = some found)
    (general : vcb.searchExtentFile io fcb position = .ok search) :
    found = (search.endingFABNPlusOne
        - (search.foundExtentData.getD search.foundExtentIndex .none).blockCount,
      (search.foundExtentData.getD search.foundExtentIndex .none).startBlock,
      search.endingFABNPlusOne) := by
  rcases mapFileBlockFromFCB_spec wellFormed position with ⟨pre, extent, maps, run⟩ | missed
  · have inFork := maps.append_right ((vcb.ownRecords fcb).flatMap vcb.recordExtents)
    rw [← forkExtents] at inFork
    have mapped : position / vcb.blockSize < blockSum (vcb.forkExtents fcb) :=
      inFork.high.trans_le inFork.le_blockSum
    have ⟨pre', extent', search', maps', run', ending, entry⟩ :=
      searchExtentFile_spec wellFormed readable mapped
    obtain ⟨rfl, rfl⟩ := inFork.unique maps'
    rw [fast] at run
    rw [general] at run'
    cases run'
    rw [Option.some.inj run, entry, ending, Nat.add_sub_cancel]
  · rw [fast] at missed
    cases missed

/-- The lookup of `MapFileBlockC` finds the extent that maps a block of the fork. -/
theorem lookupFileBlock_spec {io : SearchErrors} {offset : ℕ} (readable : ∀ key, io key = none)
    (mapped : offset / vcb.blockSize < blockSum (vcb.forkExtents fcb)) :
    ∃ pre extent, Maps (vcb.forkExtents fcb) (offset / vcb.blockSize) pre extent ∧
      vcb.lookupFileBlock io fcb offset =
        .ok (blockSum pre, extent.startBlock, blockSum pre + extent.blockCount) := by
  unfold lookupFileBlock
  rcases mapFileBlockFromFCB_spec wellFormed offset with ⟨pre, extent, maps, run⟩ | missed
  · have inFork := maps.append_right ((vcb.ownRecords fcb).flatMap vcb.recordExtents)
    rw [run]
    exact ⟨pre, extent, inFork, rfl⟩
  have ⟨pre, extent, search, maps, run, ending, entry⟩ :=
    searchExtentFile_spec wellFormed readable mapped
  have bound : blockSum pre + extent.blockCount < 2 ^ 32 := by
    have onVolume := wellFormed.onVolume
    have narrow := vcb.totalBlocks_lt
    have mem := maps.le_blockSum
    omega
  refine ⟨pre, extent, maps, ?_⟩
  rw [missed, run]
  simp only [entry, ending]
  have first : (blockSum pre + extent.blockCount + 2 ^ 32 - extent.blockCount) % 2 ^ 32 =
      blockSum pre := by omega
  rw [first]

omit wellFormed

/-- The sector of a byte of a file that lies in an extent after the extents `pre`: that of the same
byte of the volume block to which its file block is mapped. -/
def FileVcb.sectorOf (vcb : FileVcb) (pre : List Extent) (extent : Extent) (offset : ℕ) : ℕ :=
  vcb.vcbAlBlSt + ((extent.startBlock + (offset / vcb.blockSize - blockSum pre)) * vcb.blockSize
    + offset % vcb.blockSize) / 512

theorem sectorOf_eq {pre : List Extent} {extent : Extent} {offset : ℕ}
    (sectors : 512 ∣ vcb.blockSize) (low : blockSum pre ≤ offset / vcb.blockSize) :
    vcb.sectorOf pre extent offset = (offset - blockSum pre * vcb.blockSize) / 512
      + extent.startBlock * (vcb.blockSize / 512) + vcb.vcbAlBlSt := by
  obtain ⟨k, size⟩ := sectors
  have whole : offset / vcb.blockSize * vcb.blockSize + offset % vcb.blockSize = offset := by
    rw [mul_comm]
    exact Nat.div_add_mod offset vcb.blockSize
  have least : blockSum pre * vcb.blockSize ≤ offset / vcb.blockSize * vcb.blockSize :=
    Nat.mul_le_mul_right _ low
  have split : (extent.startBlock + (offset / vcb.blockSize - blockSum pre)) * vcb.blockSize
      + offset % vcb.blockSize =
      extent.startBlock * vcb.blockSize + (offset - blockSum pre * vcb.blockSize) := by
    rw [add_mul, Nat.sub_mul]
    omega
  have sectorsOfStart : extent.startBlock * vcb.blockSize = 512 * (extent.startBlock * k) := by
    rw [size, Nat.mul_left_comm]
  have perBlock : vcb.blockSize / 512 = k := by rw [size, Nat.mul_div_cancel_left _ (by omega)]
  rw [sectorOf, split, sectorsOfStart, Nat.mul_add_div (by omega), perBlock]
  omega

/-- A volume with an empty bitmap. -/
def sampleVolume (sigWord : SigWord) (blockSize totalBlocks : ℕ) (large : 512 ≤ blockSize)
    (few : totalBlocks < 2 ^ 32) (extentsFile : List (ExtentKey × List Extent)) : FileVcb where
  blockSize := blockSize
  totalBlocks := totalBlocks
  freeBlocks := 0
  nextAllocation := 0
  vcbAlBlkSiz := 512
  vcbFreeBks := 0
  bitmap := fun _ => 0#32
  blockSize_ge := large
  totalBlocks_lt := few
  vcbSigWord := sigWord
  vcbAlBlSt := 16
  extentsFile := extentsFile

/-- An HFS volume on which a fork of five blocks has an extent in the extents file. -/
def overflowVolume : FileVcb :=
  sampleVolume .hfs 512 1000 (by decide) (by decide)
    [({ fileID := 16, forkType := 0, startBlock := 3 }, [⟨40, 2⟩, .none, .none]),
      ({ fileID := 17, forkType := 0, startBlock := 9 }, [⟨50, 7⟩, .none, .none])]

/-- The FCB of that fork. -/
def overflowFcb : Fcb where
  fcbFlNm := 16
  resource := false
  fcbPLen := 2560
  fcbExtRec := [⟨10, 1⟩, ⟨20, 1⟩, ⟨30, 1⟩]
  extents := []

theorem overflowVolume_wellFormed : overflowVolume.WellFormedFork overflowFcb := by
  constructor
  case sorted => decide
  case keyed => exact ⟨rfl, trivial⟩
  case overflow => exact fun _ => rfl
  case onVolume => decide
  case narrow => exact fun _ => by decide

/-- An HFS Plus volume with blocks of 4096 bytes. -/
def wideVolume : FileVcb :=
  sampleVolume .hfsPlus 4096 (2 ^ 21) (by decide) (by decide) []

/-- The FCB of a fork of one block, whose only extent has 2 ^ 20 blocks. -/
def wideFcb : Fcb where
  fcbFlNm := 16
  resource := false
  fcbPLen := 4096
  fcbExtRec := []
  extents := [⟨0, 2 ^ 20⟩, .none, .none, .none, .none, .none, .none, .none]

theorem wideVolume_wellFormed : wideVolume.WellFormedFork wideFcb := by
  constructor
  case sorted => exact List.Pairwise.nil
  case keyed => trivial
  case overflow => exact fun some => absurd rfl some
  case onVolume => decide
  case narrow => exact fun hfs => by cases hfs

end Mapping

/-! ## Forks that share no block -/

section Apart

/-- Two extents have no block in common. -/
abbrev Extent.Apart (a b : Extent) : Prop :=
  a.startBlock + a.blockCount ≤ b.startBlock ∨ b.startBlock + b.blockCount ≤ a.startBlock

/-- A fork with extents of its own, all of which `MapFileBlockC` can reach. -/
structure FileVcb.Usable (vcb : FileVcb) (fcb : Fcb) : Prop where
  wellFormed : vcb.WellFormedFork fcb
  covers : fcb.fcbPLen ≤ blockSum (vcb.forkExtents fcb) * vcb.blockSize
  limit : fcb.fcbPLen < 2 ^ 31
  ends : ∀ block pre extent, Maps (vcb.forkExtents fcb) block pre extent →
    blockSum pre * vcb.blockSize < fcb.fcbPLen →
    (blockSum pre + extent.blockCount) * vcb.blockSize < 2 ^ 32
  apart : (vcb.forkExtents fcb).Pairwise Extent.Apart
  /-- The numbers of the sectors have 32 bits. -/
  reached : ∀ extent ∈ vcb.forkExtents fcb,
    512 * vcb.vcbAlBlSt + (extent.startBlock + extent.blockCount) * vcb.blockSize ≤ 512 * 2 ^ 32

variable {extents pre pre' : List Extent} {block block' : ℕ} {extent extent' : Extent}

theorem Maps.mem (maps : Maps extents block pre extent) : extent ∈ extents := by
  obtain ⟨post, rfl⟩ := maps.position
  exact mem_append_right _ mem_cons_self

/-- Two extents of a fork are apart if they are not at the same place. -/
theorem Maps.apart_or_same (apart : extents.Pairwise Extent.Apart)
    (maps : Maps extents block pre extent) (maps' : Maps extents block' pre' extent') :
    extent.Apart extent' ∨ pre = pre' ∧ extent = extent' := by
  obtain ⟨post, rfl⟩ := maps.position
  obtain ⟨post', same⟩ := maps'.position
  -- one place comes first; the extents between the two decide whether they differ
  rcases append_eq_append_iff.mp same with ⟨between, rfl, rest⟩ | ⟨between, rfl, rest⟩
  · cases between with
    | nil => exact .inr ⟨(append_nil _).symm, (cons.inj rest).1⟩
    | cons first between =>
      obtain ⟨rfl, rfl⟩ := cons.inj rest
      have later := (pairwise_cons.mp (pairwise_append.mp apart).2.1).1
      exact .inl (later extent' (mem_append_right _ mem_cons_self))
  · cases between with
    | nil => exact .inr ⟨append_nil _, (cons.inj rest).1.symm⟩
    | cons first between =>
      obtain ⟨rfl, rfl⟩ := cons.inj rest
      rw [append_assoc] at apart
      have later := (pairwise_cons.mp (pairwise_append.mp apart).2.1).1
      exact .inl (later extent (mem_append_right _ mem_cons_self)).symm

variable {vcb : FileVcb} {fcb : Fcb} {io : SearchErrors} {offset numberOfBytes i : ℕ}
  {mapped : ℕ × ℕ}

/-- The bytes of a run follow one another on the device as in the extent that maps them. -/
theorem mapFileBlockC_run (usable : vcb.Usable fcb) (readable : ∀ key, io key = none)
    (sectors : 512 ∣ vcb.blockSize) (inside : offset < fcb.fcbPLen)
    (returned : vcb.mapFileBlockC io fcb numberOfBytes offset = .ok mapped) (run : i < mapped.2) :
    ∃ pre extent, Maps (vcb.forkExtents fcb) (offset / vcb.blockSize) pre extent ∧
      blockSum pre * vcb.blockSize ≤ offset ∧
      offset + i < (blockSum pre + extent.blockCount) * vcb.blockSize ∧
      512 * mapped.1 + offset % 512 + i = 512 * vcb.vcbAlBlSt + extent.startBlock * vcb.blockSize +
        (offset + i - blockSum pre * vcb.blockSize) := by
  have positive : 0 < vcb.blockSize := lt_of_lt_of_le (by omega) vcb.blockSize_ge
  have lies : offset / vcb.blockSize < blockSum (vcb.forkExtents fcb) :=
    (Nat.div_lt_iff_lt_mul positive).mpr (inside.trans_le usable.covers)
  obtain ⟨pre, extent, maps, looked⟩ :=
    lookupFileBlock_spec usable.wellFormed readable lies
  have begins := (Nat.le_div_iff_mul_le positive).mp maps.low
  have noWrap := usable.ends _ pre extent maps (begins.trans_lt inside)
  have reached := usable.reached extent maps.mem
  rw [mapFileBlockC, looked] at returned
  obtain rfl := Except.ok.inj returned
  dsimp only at run ⊢
  rw [Nat.mod_eq_of_lt noWrap] at run
  have limit := usable.limit
  have ends : offset + i < (blockSum pre + extent.blockCount) * vcb.blockSize := by
    have reaches := (Nat.div_lt_iff_lt_mul positive).mp maps.high
    split_ifs at run <;> omega
  refine ⟨pre, extent, maps, begins, ends, ?_⟩
  obtain ⟨k, size⟩ := sectors
  rw [size, Nat.mul_div_cancel_left k (by omega)]
  simp only [size, add_mul, Nat.mul_left_comm _ 512] at begins ends reached ⊢
  omega

end Apart

/-- Two forks on the volume with an extents file. -/
def overflowForks : Bool → Fcb
  | false => overflowFcb
  | true => ⟨17, false, 8192, [⟨60, 3⟩, ⟨70, 3⟩, ⟨80, 3⟩], []⟩

theorem overflowForks_usable (f : Bool) : overflowVolume.Usable (overflowForks f) := by
  have sum : blockSum (overflowVolume.forkExtents (overflowForks f)) ≤ 16 := by
    cases f <;> decide
  constructor
  case wellFormed =>
    cases f
    · exact overflowVolume_wellFormed
    · exact ⟨by decide, ⟨rfl, trivial⟩, fun _ => rfl, by decide, fun _ => by decide⟩
  case ends =>
    intro _ pre extent maps _
    have := maps.le_blockSum
    rw [show overflowVolume.blockSize = 512 from rfl]
    omega
  case reached => cases f <;> decide +kernel
  all_goals cases f <;> decide

end Darwin.Hfs
