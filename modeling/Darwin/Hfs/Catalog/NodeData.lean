import Mathlib.Algebra.Order.Ring.Int

/-!
# Catalog records and the data of a node

`CopyCatalogNodeData` fills the universal `CatalogNodeData` from a catalog record, and
`UpdateCatalogNode` stores such data into the record again.  A fork of more than 2 GB is shown with
its size pinned and a bit in the valence, which was meant to keep `UpdateCatalogNode` from storing
the pinned size; it does not look at the bit.

Fields that are read and written as 32-bit words have the type `BitVec 32`, whatever their sign in
the source.  What `UpdateCatalogNode` does to the dates of the volume, and the flush, are left out.

## Main results

* `updateCatalogNode_exact` - when the data of a node can be stored without a change to its record
-/

namespace Darwin.Hfs.NodeData

/-! ## Records -/

/-- `DInfo`, `DXInfo`, `FInfo` and `FXInfo`. -/
abbrev FinderBytes := Vector (BitVec 8) 16

/-- `HFSCatalogFolder`. -/
structure HFSCatalogFolder where
  flags : BitVec 16
  valence : BitVec 16
  folderID : BitVec 32
  createDate : BitVec 32
  modifyDate : BitVec 32
  backupDate : BitVec 32
  userInfo : FinderBytes
  finderInfo : FinderBytes
  reserved : Vector (BitVec 32) 4

/-- `HFSExtentDescriptor`. -/
structure HFSExtentDescriptor where
  startBlock : BitVec 16
  blockCount : BitVec 16
  deriving DecidableEq

/-- `HFSPlusExtentDescriptor`. -/
structure HFSPlusExtentDescriptor where
  startBlock : BitVec 32
  blockCount : BitVec 32
  deriving DecidableEq

/-- `HFSExtentRecord`. -/
abbrev HFSExtentRecord := Fin 3 → HFSExtentDescriptor

/-- `HFSPlusExtentRecord`. -/
abbrev HFSPlusExtentRecord := Fin 8 → HFSPlusExtentDescriptor

/-- `HFSCatalogFile`. -/
structure HFSCatalogFile where
  flags : BitVec 8
  fileType : BitVec 8
  userInfo : FinderBytes
  fileID : BitVec 32
  dataStartBlock : BitVec 16
  dataLogicalSize : BitVec 32
  dataPhysicalSize : BitVec 32
  rsrcStartBlock : BitVec 16
  rsrcLogicalSize : BitVec 32
  rsrcPhysicalSize : BitVec 32
  createDate : BitVec 32
  modifyDate : BitVec 32
  backupDate : BitVec 32
  finderInfo : FinderBytes
  clumpSize : BitVec 16
  dataExtents : HFSExtentRecord
  rsrcExtents : HFSExtentRecord
  reserved : BitVec 32

/-- `HFSPlusPermissions`. -/
structure HFSPlusPermissions where
  ownerID : BitVec 32
  groupID : BitVec 32
  permissions : BitVec 32
  specialDevice : BitVec 32

/-- `HFSPlusCatalogFolder`. -/
structure HFSPlusCatalogFolder where
  flags : BitVec 16
  valence : BitVec 32
  folderID : BitVec 32
  createDate : BitVec 32
  contentModDate : BitVec 32
  attributeModDate : BitVec 32
  accessDate : BitVec 32
  backupDate : BitVec 32
  permissions : HFSPlusPermissions
  userInfo : FinderBytes
  finderInfo : FinderBytes
  textEncoding : BitVec 32
  reserved : BitVec 32

/-- `HFSPlusForkData`, with the two words of the logical size. -/
structure HFSPlusForkData where
  logicalSizeHi : BitVec 32
  logicalSizeLo : BitVec 32
  clumpSize : BitVec 32
  totalBlocks : BitVec 32
  extents : HFSPlusExtentRecord

/-- `HFSPlusCatalogFile`. -/
structure HFSPlusCatalogFile where
  flags : BitVec 16
  reserved1 : BitVec 32
  fileID : BitVec 32
  createDate : BitVec 32
  contentModDate : BitVec 32
  attributeModDate : BitVec 32
  accessDate : BitVec 32
  backupDate : BitVec 32
  permissions : HFSPlusPermissions
  userInfo : FinderBytes
  finderInfo : FinderBytes
  textEncoding : BitVec 32
  reserved2 : BitVec 32
  dataFork : HFSPlusForkData
  resourceFork : HFSPlusForkData

/-- `CatalogRecord`; the threads carry a parent and a name. -/
inductive CatalogRecord where
  | hfsFolder (record : HFSCatalogFolder)
  | hfsFile (record : HFSCatalogFile)
  | hfsThread (parentID : BitVec 32) (nodeName : List (BitVec 8))
  | hfsPlusFolder (record : HFSPlusCatalogFolder)
  | hfsPlusFile (record : HFSPlusCatalogFile)
  | hfsPlusThread (parentID : BitVec 32) (nodeName : List (BitVec 16))

/-- A record is not a thread. -/
def CatalogRecord.isNode : CatalogRecord → Bool
  | hfsThread _ _ | hfsPlusThread _ _ => false
  | _ => true

/-- The values of `nodeType`. -/
inductive NodeType where
  | folder
  | file
  | thread
  deriving DecidableEq

/-- `CatalogNodeData`. -/
structure CatalogNodeData where
  nodeType : NodeType
  nodeFlags : BitVec 32
  nodeID : BitVec 32
  createDate : BitVec 32
  contentModDate : BitVec 32
  backupDate : BitVec 32
  finderInfo : FinderBytes
  extFinderInfo : FinderBytes
  valence : BitVec 32
  textEncoding : BitVec 32
  dataLogicalSize : BitVec 32
  dataPhysicalSize : BitVec 32
  rsrcLogicalSize : BitVec 32
  rsrcPhysicalSize : BitVec 32
  dataExtents : HFSPlusExtentRecord
  rsrcExtents : HFSPlusExtentRecord
  accessDate : BitVec 32
  attributeModDate : BitVec 32
  permissions : HFSPlusPermissions

/-- What the two functions use of a volume: its block size, and the conversions of dates. -/
structure Volume where
  blockSize : BitVec 32
  utcToLocal : BitVec 32 → BitVec 32
  localToUTC : BitVec 32 → BitVec 32

/-! ## From a record to the data -/

/-- Three extents of a classic record, in front of what the other five hold. -/
def HFSExtentRecord.widen (extents : HFSExtentRecord) (old : HFSPlusExtentRecord) :
    HFSPlusExtentRecord := fun i =>
  if h : i.val < 3 then
    ⟨(extents ⟨i, h⟩).startBlock.setWidth 32, (extents ⟨i, h⟩).blockCount.setWidth 32⟩
  else old i

/-- `largestFileSizeUnder2Gig`. -/
def Volume.largestFileSizeUnder2Gig (volume : Volume) : BitVec 32 :=
  0x7FFFFFFF#32 / volume.blockSize * volume.blockSize

/-- A fork is shown with its own size. -/
def Volume.showsFork (volume : Volume) (fork : HFSPlusForkData) : Bool :=
  fork.logicalSizeHi = 0 && fork.logicalSizeLo ≤ volume.largestFileSizeUnder2Gig

/-- The logical and the physical size that are shown for a fork. -/
def Volume.shownSizes (volume : Volume) (fork : HFSPlusForkData) : BitVec 32 × BitVec 32 :=
  if volume.showsFork fork then (fork.logicalSizeLo, fork.totalBlocks * volume.blockSize)
  else (volume.largestFileSizeUnder2Gig, volume.largestFileSizeUnder2Gig)

/-- `CopyCatalogNodeData`, into a structure that holds `nodeData`. -/
def copyCatalogNodeData (volume : Volume) (nodeData : CatalogNodeData) :
    CatalogRecord → CatalogNodeData
  | .hfsFolder record =>
    { nodeData with
      nodeType := .folder
      nodeFlags := record.flags.setWidth 32
      nodeID := record.folderID
      createDate := record.createDate
      contentModDate := record.modifyDate
      backupDate := record.backupDate
      valence := record.valence.setWidth 32
      finderInfo := record.userInfo
      extFinderInfo := record.finderInfo }
  | .hfsFile record =>
    { nodeData with
      nodeType := .file
      nodeFlags := record.flags.signExtend 32
      nodeID := record.fileID
      createDate := record.createDate
      contentModDate := record.modifyDate
      backupDate := record.backupDate
      valence := 0
      finderInfo := record.userInfo
      extFinderInfo := record.finderInfo
      dataLogicalSize := record.dataLogicalSize
      dataPhysicalSize := record.dataPhysicalSize
      rsrcLogicalSize := record.rsrcLogicalSize
      rsrcPhysicalSize := record.rsrcPhysicalSize
      dataExtents := record.dataExtents.widen nodeData.dataExtents
      rsrcExtents := record.rsrcExtents.widen nodeData.rsrcExtents }
  | .hfsPlusFolder record =>
    { nodeData with
      nodeType := .folder
      nodeFlags := record.flags.setWidth 32
      nodeID := record.folderID
      textEncoding := record.textEncoding
      createDate := volume.utcToLocal record.createDate
      contentModDate := volume.utcToLocal record.contentModDate
      backupDate := volume.utcToLocal record.backupDate
      -- the largest 16-bit value is passed at most
      valence := if 0xFFFF#32 < record.valence then 0xFFFF else record.valence
      finderInfo := record.userInfo
      extFinderInfo := record.finderInfo
      accessDate := volume.utcToLocal record.accessDate
      attributeModDate := volume.utcToLocal record.attributeModDate
      permissions := record.permissions }
  | .hfsPlusFile record =>
    { nodeData with
      nodeType := .file
      nodeFlags := record.flags.setWidth 32
      nodeID := record.fileID
      textEncoding := record.textEncoding
      createDate := volume.utcToLocal record.createDate
      contentModDate := volume.utcToLocal record.contentModDate
      backupDate := volume.utcToLocal record.backupDate
      -- `kLargeDataForkMask` and `kLargeRsrcForkMask`
      valence := (if volume.showsFork record.dataFork then 0 else 1) |||
        if volume.showsFork record.resourceFork then 0 else 2
      finderInfo := record.userInfo
      extFinderInfo := record.finderInfo
      dataLogicalSize := (volume.shownSizes record.dataFork).1
      dataPhysicalSize := (volume.shownSizes record.dataFork).2
      rsrcLogicalSize := (volume.shownSizes record.resourceFork).1
      rsrcPhysicalSize := (volume.shownSizes record.resourceFork).2
      dataExtents := record.dataFork.extents
      rsrcExtents := record.resourceFork.extents
      accessDate := volume.utcToLocal record.accessDate
      attributeModDate := volume.utcToLocal record.attributeModDate
      permissions := record.permissions }
  | .hfsThread _ _ | .hfsPlusThread _ _ => { nodeData with nodeType := .thread }

/-! ## From the data to a record -/

/-- The extents of a classic record are written. -/
def HFSPlusExtentRecord.narrow (extents : HFSPlusExtentRecord) : HFSExtentRecord := fun i =>
  ⟨(extents (i.castLE (by decide))).startBlock.setWidth 16,
    (extents (i.castLE (by decide))).blockCount.setWidth 16⟩

/-- The sizes and the extents of a fork are written. -/
def Volume.storeFork (volume : Volume) (fork : HFSPlusForkData)
    (logicalSize physicalSize : BitVec 32) (extents : HFSPlusExtentRecord) : HFSPlusForkData :=
  { fork with
    logicalSizeLo := logicalSize
    totalBlocks := physicalSize / volume.blockSize
    extents := extents }

/-- The `switch` of `UpdateCatalogNode`; nothing stands for `cmNotFound`. -/
def updateRecord (volume : Volume) (nodeData : CatalogNodeData) :
    CatalogRecord → Option CatalogRecord
  | .hfsFolder record => some <| .hfsFolder
    { record with
      createDate := nodeData.createDate
      modifyDate := nodeData.contentModDate
      backupDate := nodeData.backupDate
      userInfo := nodeData.finderInfo
      finderInfo := nodeData.extFinderInfo }
  | .hfsFile record => some <| .hfsFile
    { record with
      flags := nodeData.nodeFlags.setWidth 8
      createDate := nodeData.createDate
      modifyDate := nodeData.contentModDate
      backupDate := nodeData.backupDate
      dataLogicalSize := nodeData.dataLogicalSize
      dataPhysicalSize := nodeData.dataPhysicalSize
      rsrcLogicalSize := nodeData.rsrcLogicalSize
      rsrcPhysicalSize := nodeData.rsrcPhysicalSize
      userInfo := nodeData.finderInfo
      finderInfo := nodeData.extFinderInfo
      dataExtents := nodeData.dataExtents.narrow
      rsrcExtents := nodeData.rsrcExtents.narrow }
  | .hfsPlusFolder record => some <| .hfsPlusFolder
    { record with
      createDate := volume.localToUTC nodeData.createDate
      contentModDate := volume.localToUTC nodeData.contentModDate
      backupDate := volume.localToUTC nodeData.backupDate
      accessDate := volume.localToUTC nodeData.accessDate
      attributeModDate := volume.localToUTC nodeData.attributeModDate
      permissions := nodeData.permissions
      userInfo := nodeData.finderInfo
      finderInfo := nodeData.extFinderInfo }
  | .hfsPlusFile record => some <| .hfsPlusFile
    { record with
      flags := nodeData.nodeFlags.setWidth 16
      createDate := volume.localToUTC nodeData.createDate
      contentModDate := volume.localToUTC nodeData.contentModDate
      backupDate := volume.localToUTC nodeData.backupDate
      accessDate := volume.localToUTC nodeData.accessDate
      attributeModDate := volume.localToUTC nodeData.attributeModDate
      permissions := nodeData.permissions
      dataFork := volume.storeFork record.dataFork nodeData.dataLogicalSize
        nodeData.dataPhysicalSize nodeData.dataExtents
      resourceFork := volume.storeFork record.resourceFork nodeData.rsrcLogicalSize
        nodeData.rsrcPhysicalSize nodeData.rsrcExtents
      userInfo := nodeData.finderInfo
      finderInfo := nodeData.extFinderInfo }
  | .hfsThread _ _ | .hfsPlusThread _ _ => none

/-- The results of `UpdateCatalogNode`. -/
inductive OSErr where
  | noErr
  | cmNotFound
  deriving DecidableEq

section Update

variable {K : Type*} [DecidableEq K]

/-- `UpdateCatalogNode`, from the key on under which the node was found, by its name or by an id
that is embedded in the name. -/
def updateCatalogNode (volume : Volume) (records : K → Option CatalogRecord) (located : Option K)
    (nodeData : CatalogNodeData) : OSErr × (K → Option CatalogRecord) :=
  match located with
  | none => (.cmNotFound, records)
  | some key =>
    match (records key).bind (updateRecord volume nodeData) with
    | none => (.cmNotFound, records)
    | some record => (.noErr, Function.update records key (some record))

end Update

/-! ## There and back -/

/-- A fork is stored as it was: it is shown with its own size and takes less than 4 GB; or it has
the pinned size itself, and the blocks for that. -/
def Volume.KeepsFork (volume : Volume) (fork : HFSPlusForkData) : Prop :=
  if volume.showsFork fork then fork.totalBlocks.toNat * volume.blockSize.toNat < 2 ^ 32
  else fork.logicalSizeLo = volume.largestFileSizeUnder2Gig ∧
    fork.totalBlocks = volume.largestFileSizeUnder2Gig / volume.blockSize

/-- Both forks of a record are stored as they were. -/
def Volume.KeepsForks (volume : Volume) : CatalogRecord → Prop
  | .hfsPlusFile record =>
    volume.KeepsFork record.dataFork ∧ volume.KeepsFork record.resourceFork
  | _ => True

section RoundTrip

variable {volume : Volume} {nodeData : CatalogNodeData} {record : CatalogRecord}

theorem narrow_widen (extents : HFSExtentRecord) (old : HFSPlusExtentRecord) :
    (extents.widen old).narrow = extents := by
  funext i
  have mem : (i.castLE (by decide : 3 ≤ 8)).val < 3 := i.isLt
  simp only [HFSPlusExtentRecord.narrow, HFSExtentRecord.widen, dif_pos mem]
  refine congrArg₂ HFSExtentDescriptor.mk ?_ ?_
  · exact BitVec.setWidth_setWidth_of_le _ (by decide) |>.trans (BitVec.setWidth_eq _)
  · exact BitVec.setWidth_setWidth_of_le _ (by decide) |>.trans (BitVec.setWidth_eq _)

/-- A number of blocks is found again from the bytes if these fit in a word. -/
theorem mul_div_eq_iff {blocks size : BitVec 32} (some_ : size ≠ 0) :
    blocks * size / size = blocks ↔ blocks.toNat * size.toNat < 2 ^ 32 := by
  have pos : 0 < size.toNat := Nat.pos_of_ne_zero fun zero => some_ (BitVec.eq_of_toNat_eq zero)
  rw [← BitVec.toNat_inj, BitVec.toNat_udiv, BitVec.toNat_mul]
  constructor
  · intro same
    by_contra large
    have below : blocks.toNat * size.toNat % 2 ^ 32 / size.toNat < blocks.toNat := by
      rw [Nat.div_lt_iff_lt_mul pos]
      exact lt_of_lt_of_le (Nat.mod_lt _ (Nat.two_pow_pos 32)) (not_lt.mp large)
    omega
  · intro fits
    rw [Nat.mod_eq_of_lt fits, Nat.mul_div_cancel _ pos]

theorem storeFork_shownSizes (some_ : volume.blockSize ≠ 0) (fork : HFSPlusForkData) :
    volume.storeFork fork (volume.shownSizes fork).1 (volume.shownSizes fork).2 fork.extents =
        fork ↔
      volume.KeepsFork fork := by
  have parts (logicalSize physicalSize : BitVec 32) :
      volume.storeFork fork logicalSize physicalSize fork.extents = fork ↔
        fork.logicalSizeLo = logicalSize ∧ fork.totalBlocks = physicalSize / volume.blockSize := by
    cases fork
    simp only [Volume.storeFork, HFSPlusForkData.mk.injEq, true_and, and_true]
    exact and_congr eq_comm eq_comm
  rw [parts, Volume.shownSizes, Volume.KeepsFork]
  split_ifs with shown
  · rw [← mul_div_eq_iff some_, eq_comm (a := fork.totalBlocks)]
    exact and_iff_right rfl
  · rfl

/-- The record of a node is stored as it was if and only if its forks are. -/
theorem updateRecord_copy (some_ : volume.blockSize ≠ 0)
    (inverse : ∀ date, volume.localToUTC (volume.utcToLocal date) = date)
    (node : record.isNode = true) :
    updateRecord volume (copyCatalogNodeData volume nodeData record) record = some record ↔
      volume.KeepsForks record := by
  cases record with
  | hfsThread parentID nodeName => cases node
  | hfsPlusThread parentID nodeName => cases node
  | hfsFolder record => exact iff_of_true rfl trivial
  | hfsFile record =>
    refine iff_of_true ?_ trivial
    have flags : (record.flags.signExtend 32).setWidth 8 = record.flags := by
      ext i mem
      have below : i < 32 := by omega
      simp [BitVec.getElem_signExtend, mem, below]
    simp only [updateRecord, copyCatalogNodeData, narrow_widen, flags]
  | hfsPlusFolder record =>
    refine iff_of_true ?_ trivial
    simp only [updateRecord, copyCatalogNodeData, inverse]
  | hfsPlusFile record =>
    have flags : (record.flags.setWidth 32).setWidth 16 = record.flags := by
      simp
    simp only [updateRecord, copyCatalogNodeData, inverse, flags]
    rw [Volume.KeepsForks, ← storeFork_shownSizes some_, ← storeFork_shownSizes some_]
    cases record
    simp only [Option.some.injEq, CatalogRecord.hfsPlusFile.injEq, HFSPlusCatalogFile.mk.injEq,
      true_and]

/-- `UpdateCatalogNode`, given the data that `CopyCatalogNodeData` makes of a record, leaves the
catalog as it was if and only if the forks of the record have their own sizes there. -/
theorem updateCatalogNode_exact {K : Type*} [DecidableEq K] (volume : Volume)
    (some_ : volume.blockSize ≠ 0)
    (inverse : ∀ date, volume.localToUTC (volume.utcToLocal date) = date)
    (records : K → Option CatalogRecord) (key : K) (record : CatalogRecord)
    (there : records key = some record) (node : record.isNode = true) (nodeData : CatalogNodeData) :
    updateCatalogNode volume records (some key) (copyCatalogNodeData volume nodeData record) =
      (.noErr, records) ↔ volume.KeepsForks record := by
  rw [← updateRecord_copy some_ inverse node, updateCatalogNode]
  rw [there, Option.bind_some]
  cases stored : updateRecord volume (copyCatalogNodeData volume nodeData record) record with
  | none => simp
  | some record' =>
    constructor
    · intro same
      have kept := congrFun (Prod.mk.inj same).2 key
      rw [Function.update_self, there] at kept
      exact kept
    · intro kept
      have same : Function.update records key (some record') = records := by
        rw [kept, ← there, Function.update_eq_self]
      exact congrArg (Prod.mk OSErr.noErr) same

/-! ### Samples -/

def noPermissions : HFSPlusPermissions := ⟨0, 0, 0, 0⟩

/-- A file with the given data fork. -/
def sampleFile (dataFork : HFSPlusForkData) : HFSPlusCatalogFile where
  flags := 2
  reserved1 := 0
  fileID := 16
  createDate := 1
  contentModDate := 2
  attributeModDate := 2
  accessDate := 3
  backupDate := 0
  permissions := noPermissions
  userInfo := .replicate 16 0
  finderInfo := .replicate 16 0
  textEncoding := 0
  reserved2 := 0
  dataFork := dataFork
  resourceFork := ⟨0, 0, 0, 0, fun _ => ⟨0, 0⟩⟩

/-- Data that nothing was copied to. -/
def noData : CatalogNodeData where
  nodeType := .thread
  nodeFlags := 0
  nodeID := 0
  createDate := 0
  contentModDate := 0
  backupDate := 0
  finderInfo := .replicate 16 0
  extFinderInfo := .replicate 16 0
  valence := 0
  textEncoding := 0
  dataLogicalSize := 0
  dataPhysicalSize := 0
  rsrcLogicalSize := 0
  rsrcPhysicalSize := 0
  dataExtents := fun _ => ⟨0, 0⟩
  rsrcExtents := fun _ => ⟨0, 0⟩
  accessDate := 0
  attributeModDate := 0
  permissions := noPermissions

/-- A volume of 4 KB blocks, in the time zone of its dates. -/
def sampleVolume : Volume := ⟨0x1000, id, id⟩

/-- A fork in one extent. -/
def sampleFork (hi lo blocks : BitVec 32) : HFSPlusForkData :=
  ⟨hi, lo, 0, blocks, fun i => if i = 0 then ⟨100, blocks⟩ else ⟨0, 0⟩⟩

/-- A file of 5000 bytes. -/
theorem updateCatalogNode_exact_small :
    updateCatalogNode sampleVolume
      (fun _ : Unit => some (.hfsPlusFile (sampleFile (sampleFork 0 5000 2)))) (some ())
      (copyCatalogNodeData sampleVolume noData (.hfsPlusFile (sampleFile (sampleFork 0 5000 2)))) =
    (.noErr, fun _ => some (.hfsPlusFile (sampleFile (sampleFork 0 5000 2)))) := by
  have keeps : sampleVolume.KeepsForks (.hfsPlusFile (sampleFile (sampleFork 0 5000 2))) :=
    ⟨show (2 * 0x1000 : ℕ) < 2 ^ 32 by decide, show (0 * 0x1000 : ℕ) < 2 ^ 32 by decide⟩
  exact (updateCatalogNode_exact sampleVolume (by decide) (fun _ => rfl) _ () _ rfl rfl noData).mpr
    keeps

/-- The record of a file of 4 GB and one byte says 2 GB less a block after an update. -/
theorem updateCatalogNode_cuts :
    updateCatalogNode sampleVolume
      (fun _ : Unit => some (.hfsPlusFile (sampleFile (sampleFork 1 1 0x100001)))) (some ())
      (copyCatalogNodeData sampleVolume noData
        (.hfsPlusFile (sampleFile (sampleFork 1 1 0x100001)))) ≠
    (.noErr, fun _ => some (.hfsPlusFile (sampleFile (sampleFork 1 1 0x100001)))) := by
  intro same
  have kept := congrFun (Prod.mk.inj same).2 ()
  have fork : some (0x7FFFF000 : BitVec 32) = some 1 := congrArg (fun record => record.bind fun
    | .hfsPlusFile file => some file.dataFork.logicalSizeLo
    | _ => none) kept
  exact absurd fork (by decide)

end RoundTrip

end Darwin.Hfs.NodeData
