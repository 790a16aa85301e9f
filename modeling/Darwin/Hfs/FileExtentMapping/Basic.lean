import Darwin.Hfs.VolumeAllocation.Basic

/-!
# File extent mapping

A model of the lookups of `Misc/FileExtentMapping.c`.  The extents of a fork are held in an extent
record of its FCB, 3 extents on HFS and 8 on HFS Plus, and continue in records of the extents file,
keyed by the first file allocation block (FABN) they map.  The extents file is modelled by its
records in key order, and the failures of its B-tree are a parameter.
-/

namespace Darwin.Hfs

/-- The result codes of the extent mapping routines. -/
inductive ExtentErr where
  | fxRangeErr
  | btNotFound
  /-- An error of the extents B-tree. -/
  | btErr (code : ℕ)
  deriving DecidableEq, Repr

/-- `vcbSigWord`. -/
inductive SigWord where
  | hfs
  | hfsPlus
  deriving DecidableEq, Repr

/-- An extent descriptor. -/
structure Extent where
  startBlock : ℕ
  blockCount : ℕ
  deriving DecidableEq, Repr

/-- The descriptor of no extent. -/
def Extent.none : Extent := { startBlock := 0, blockCount := 0 }

/-- A key of the extents file. -/
structure ExtentKey where
  fileID : ℕ
  forkType : ℕ
  startBlock : ℕ
  deriving DecidableEq, Repr

/-- `CompareExtentKeys`, `CompareExtentKeysPlus`: whether the first key comes before the second. -/
def ExtentKey.before (searchKey trialKey : ExtentKey) : Bool :=
  if searchKey.fileID = trialKey.fileID then
    if searchKey.forkType = trialKey.forkType then searchKey.startBlock < trialKey.startBlock
    else searchKey.forkType < trialKey.forkType
  else searchKey.fileID < trialKey.fileID

/-- A volume with its extents file, the records of which are in key order. -/
structure FileVcb extends Vcb where
  vcbSigWord : SigWord
  /-- The first sector of the allocation blocks. -/
  vcbAlBlSt : ℕ
  extentsFile : List (ExtentKey × List Extent)

/-- The fields of an FCB that describe its fork: the extent record of HFS and that of HFS Plus. -/
structure Fcb where
  fcbFlNm : ℕ
  /-- `fcbResourceMask`. -/
  resource : Bool
  fcbPLen : ℕ
  fcbExtRec : List Extent
  extents : List Extent

/-- The errors of a search in the extents B-tree. -/
abbrev SearchErrors := ExtentKey → Option ℕ

/-- `kHFSExtentDensity` or `kHFSPlusExtentDensity`. -/
def SigWord.density : SigWord → ℕ
  | .hfs => 3
  | .hfsPlus => 8

/-- `ExtDataRecToExtents`: copy the first three extents and zero out the remaining ones. -/
def extDataRecToExtents (oldExtents : List Extent) : List Extent :=
  [oldExtents.getD 0 .none, oldExtents.getD 1 .none, oldExtents.getD 2 .none]
    ++ List.replicate 5 .none

/-- An extent record as the callers see it: on HFS it is extended with empty extents. -/
def SigWord.readRecord (sigWord : SigWord) (record : List Extent) : List Extent :=
  match sigWord with
  | .hfs => extDataRecToExtents record
  | .hfsPlus => record

/-- `GetFCBExtentRecord`. -/
def FileVcb.getFCBExtentRecord (vcb : FileVcb) (fcb : Fcb) : List Extent :=
  match vcb.vcbSigWord with
  | .hfs => vcb.vcbSigWord.readRecord fcb.fcbExtRec
  | .hfsPlus => vcb.vcbSigWord.readRecord fcb.extents

/-- `forkType`: `kDataForkType` or `kResourceForkType`. -/
def Fcb.forkType (fcb : Fcb) : ℕ := if fcb.resource then 0xFF else 0

/-! ## Searching a record -/

/-- What `SearchExtentRecord` reports. -/
structure RecordSearch where
  found : Bool
  foundExtentIndex : ℕ
  endingFABNPlusOne : ℕ
  noMoreExtents : Bool
  deriving DecidableEq, Repr

/-- The loop of `SearchExtentRecord`.  If no extent maps the block, the index is that of the last one
looked at, or 0. -/
def searchExtents (searchFABN : ℕ) : (extents : List Extent) → (extentIndex ending : ℕ) → RecordSearch
  | [], extentIndex, ending =>
    { found := false, foundExtentIndex := extentIndex - 1, endingFABNPlusOne := ending,
      noMoreExtents := false }
  | extent :: extents, extentIndex, ending =>
    if extent.blockCount = 0 then
      { found := false, foundExtentIndex := extentIndex - 1, endingFABNPlusOne := ending,
        noMoreExtents := true }
    else if searchFABN < (ending + extent.blockCount) % 2 ^ 32 then
      { found := true, foundExtentIndex := extentIndex,
        endingFABNPlusOne := (ending + extent.blockCount) % 2 ^ 32, noMoreExtents := false }
    else searchExtents searchFABN extents (extentIndex + 1) ((ending + extent.blockCount) % 2 ^ 32)

/-- `SearchExtentRecord`. -/
def FileVcb.searchExtentRecord (vcb : FileVcb) (searchFABN : ℕ) (extentData : List Extent)
    (extentDataStartFABN : ℕ) : RecordSearch :=
  searchExtents searchFABN (extentData.take vcb.vcbSigWord.density) 0 extentDataStartFABN

/-! ## Searching the extents file -/

/-- `BTSearchRecord`, and `BTIterateRecord` back from where the key would be. -/
def searchKeyed (file : List (ExtentKey × List Extent)) (key : ExtentKey) (allowPrevious : Bool) :
    Option (ExtentKey × List Extent) :=
  match file.find? (·.1 = key) with
  | some record => some record
  | none => if allowPrevious then (file.filter (·.1.before key)).getLast? else none

/-- The block number in a key, which has 16 bits on HFS. -/
def SigWord.keyBlock (sigWord : SigWord) (startBlock : ℕ) : ℕ :=
  match sigWord with
  | .hfs => startBlock % 2 ^ 16
  | .hfsPlus => startBlock

/-- `FindExtentRecord`: the record with the given key or, if allowed, the previous one if it is of
the same fork. -/
def FileVcb.findExtentRecord (vcb : FileVcb) (io : SearchErrors) (forkType fileID startBlock : ℕ)
    (allowPrevious : Bool) : Except ExtentErr (ExtentKey × List Extent) :=
  let key : ExtentKey :=
    { fileID := fileID, forkType := forkType, startBlock := vcb.vcbSigWord.keyBlock startBlock }
  match io key with
  | some code => .error (.btErr code)
  | none =>
    match searchKeyed vcb.extentsFile key allowPrevious with
    | none => .error .btNotFound
    | some (foundKey, foundData) =>
      if foundKey.fileID = fileID ∧ foundKey.forkType = forkType then
        .ok (foundKey, vcb.vcbSigWord.readRecord foundData)
      else .error .btNotFound

/-- What `SearchExtentFile` reports: the record, where it is from (no key for the FCB), and the
extent in it. -/
structure FileSearch where
  foundExtentKey : Option ExtentKey
  foundExtentData : List Extent
  foundExtentIndex : ℕ
  endingFABNPlusOne : ℕ
  deriving DecidableEq, Repr

/-- `SearchExtentFile`: search the FCB and the extents file for the extent that contains a file
position. -/
def FileVcb.searchExtentFile (vcb : FileVcb) (io : SearchErrors) (fcb : Fcb) (filePosition : ℕ) :
    Except ExtentErr FileSearch :=
  let filePositionBlock := filePosition / vcb.blockSize
  let resident := vcb.getFCBExtentRecord fcb
  let search := vcb.searchExtentRecord filePositionBlock resident 0
  if search.found then
    .ok { foundExtentKey := none, foundExtentData := resident
          foundExtentIndex := search.foundExtentIndex
          endingFABNPlusOne := search.endingFABNPlusOne }
  else if search.noMoreExtents then .error .fxRangeErr
  else
    match vcb.findExtentRecord io fcb.forkType fcb.fcbFlNm filePositionBlock true with
    | .error .btNotFound => .error .fxRangeErr
    | .error e => .error e
    | .ok (key, record) =>
      let search := vcb.searchExtentRecord filePositionBlock record key.startBlock
      if search.found then
        .ok { foundExtentKey := some key, foundExtentData := record
              foundExtentIndex := search.foundExtentIndex
              endingFABNPlusOne := search.endingFABNPlusOne }
      else .error .fxRangeErr

/-! ## Mapping a file block -/

/-- The loop of `MapFileBlockFromFCB` with block counters of `width` bits: the first file block of the
extent, its allocation block, and the file block after it. -/
def walkExtents (width : ℕ) : (extents : List Extent) → (offsetBlocks currentFABN : ℕ) →
    Option (ℕ × ℕ × ℕ)
  | [], _, _ => none
  | extent :: extents, offsetBlocks, currentFABN =>
    if extent.blockCount = 0 then none
    else if offsetBlocks < extent.blockCount then
      some (currentFABN, extent.startBlock, (currentFABN + extent.blockCount) % 2 ^ width)
    else
      walkExtents width extents (offsetBlocks - extent.blockCount)
        ((currentFABN + extent.blockCount) % 2 ^ width)

/-- `MapFileBlockFromFCB`: `none` for `fxRangeErr`. -/
def FileVcb.mapFileBlockFromFCB (vcb : FileVcb) (fcb : Fcb) (offset : ℕ) : Option (ℕ × ℕ × ℕ) :=
  match vcb.vcbSigWord with
  | .hfs => walkExtents 16 (fcb.fcbExtRec.take SigWord.hfs.density) (offset / vcb.blockSize) 0
  | .hfsPlus => walkExtents 32 (fcb.extents.take SigWord.hfsPlus.density) (offset / vcb.blockSize) 0

/-- The lookup of `MapFileBlockC`: first in the FCB, then with `SearchExtentFile`. -/
def FileVcb.lookupFileBlock (vcb : FileVcb) (io : SearchErrors) (fcb : Fcb) (offset : ℕ) :
    Except ExtentErr (ℕ × ℕ × ℕ) :=
  match vcb.mapFileBlockFromFCB fcb offset with
  | some found => .ok found
  | none =>
    match vcb.searchExtentFile io fcb offset with
    | .error e => .error e
    | .ok search =>
      let extent := search.foundExtentData.getD search.foundExtentIndex .none
      .ok ((search.endingFABNPlusOne + 2 ^ 32 - extent.blockCount) % 2 ^ 32, extent.startBlock,
        search.endingFABNPlusOne)

/-- `MapFileBlockC`: the sector of a byte of a file, and the number of contiguous bytes from it.  All
numbers have 32 bits. -/
def FileVcb.mapFileBlockC (vcb : FileVcb) (io : SearchErrors) (fcb : Fcb)
    (numberOfBytes offset : ℕ) : Except ExtentErr (ℕ × ℕ) :=
  match vcb.lookupFileBlock io fcb offset with
  | .error e => .error e
  | .ok (firstFABN, startBlock, nextFABN) =>
    let extentEnd := nextFABN * vcb.blockSize % 2 ^ 32
    let dataEnd := if fcb.fcbPLen < extentEnd then fcb.fcbPLen else extentEnd
    let sectorsPerBlock := vcb.blockSize / 512
    let fromExtent := (offset + 2 ^ 32 - firstFABN * vcb.blockSize % 2 ^ 32) % 2 ^ 32 / 512
    let startSector := (fromExtent + startBlock * sectorsPerBlock + vcb.vcbAlBlSt) % 2 ^ 32
    let available := (dataEnd + 2 ^ 32 - offset) % 2 ^ 32
    .ok (startSector, if available > numberOfBytes then numberOfBytes else available)

end Darwin.Hfs
