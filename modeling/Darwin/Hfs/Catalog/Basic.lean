import Darwin.Hfs.Catalog.Tree
import Darwin.Hfs.UnicodeCompare
import Darwin.Hfs.ConvertUTF

/-!
# The catalog of an HFS Plus volume

The catalog B-tree is a finite map from keys, a folder id and a name, to records, in the order of
`CompareExtendedCatalogKeys`.  Dates, permissions, Finder information and forks of the records are
left out, as are the hints that a search may start from.

## Main definitions

* `createCatalogNode`, `deleteCatalogNode`, `moveRenameCatalogNode`
-/

namespace Darwin.Hfs.Catalog

open Darwin.Lib

/-- `HFSPlusCatalogKey`. -/
structure CatalogKey where
  parentID : ℕ
  nodeName : List UInt16
  deriving DecidableEq, Repr

/-- `CatalogRecord` of an HFS Plus volume. -/
inductive CatalogRecord where
  | folder (folderID valence textEncoding : ℕ)
  | file (fileID textEncoding : ℕ)
  | thread (kind : Kind) (parentID : ℕ) (nodeName : List UInt16)
  deriving DecidableEq, Repr

/-- The results of the catalog calls. -/
inductive OSErr where
  | noErr
  | paramErr
  | bdNamErr
  | dirNFErr
  | badMovErr
  | cmNotFound
  | cmExists
  | cmNotEmpty
  | cmRootCN
  | btNotFound
  | btExists
  deriving DecidableEq, Repr

def fsRtParID : ℕ := 1
def fsRtDirID : ℕ := 2
def kHFSFirstUserCatalogNodeID : ℕ := 16

/-! ## The B-tree -/

/-- `CompareExtendedCatalogKeys`. -/
def compareExtendedCatalogKeys (searchKey trialKey : CatalogKey) : ℤ :=
  if searchKey.parentID > trialKey.parentID then 1
  else if searchKey.parentID < trialKey.parentID then -1
  else if searchKey.nodeName.length = 0 ∨ trialKey.nodeName.length = 0 then
    searchKey.nodeName.length - trialKey.nodeName.length
  else fastUnicodeCompare searchKey.nodeName trialKey.nodeName

/-- The keys and records of the catalog file. -/
abbrev Records := List (CatalogKey × CatalogRecord)

/-- `SearchBTreeRecord`; nothing stands for `btNotFound`. -/
def searchBTreeRecord (records : Records) (key : CatalogKey) : Option (CatalogKey × CatalogRecord) :=
  records.find? fun e => compareExtendedCatalogKeys key e.1 = 0

/-- `InsertBTreeRecord`; nothing stands for `btExists`. -/
def insertBTreeRecord (records : Records) (key : CatalogKey) (data : CatalogRecord) :
    Option Records :=
  match searchBTreeRecord records key with
  | some _ => none
  | none => some (insertBefore (fun e e' => compareExtendedCatalogKeys e.1 e'.1 < 0) (key, data)
      records)

/-- `DeleteBTreeRecord`; nothing stands for `btNotFound`. -/
def deleteBTreeRecord (records : Records) (key : CatalogKey) : Option Records :=
  match searchBTreeRecord records key with
  | some _ => some (records.filter fun e => compareExtendedCatalogKeys key e.1 ≠ 0)
  | none => none

/-- `ReplaceBTreeRecord`; nothing stands for `btNotFound`. -/
def replaceBTreeRecord (records : Records) (key : CatalogKey) (data : CatalogRecord) :
    Option Records :=
  match searchBTreeRecord records key with
  | some _ => some (records.map fun e =>
    if compareExtendedCatalogKeys key e.1 = 0 then (key, data) else e)
  | none => none

/-! ## Names -/

/-- `ExtractTextEncoding`: `kTextEncodingMacJapanese` if there is an East Asian character. -/
def extractTextEncoding (string : List UInt16) : ℕ :=
  if string.any fun ch => (0x3000 ≤ ch && ch < 0xa000) || (0xff00 ≤ ch && ch ≤ 0xffef) then 1 else 0

/-- `BuildCatalogKeyUTF8`: the key, and the text encoding.  The check for `NAME_MAX` has no effect,
since the result of the conversion replaces its error. -/
def buildCatalogKeyUTF8 (parentID : ℕ) (name : List UInt8) : Except OSErr (CatalogKey × ℕ) :=
  if name = [] then .ok (⟨parentID, []⟩, 0)
  else
    let conversion := convertUTF8toUTF16 0 255 name
    match conversion.result with
    | .ok => .ok (⟨parentID, conversion.target⟩, extractTextEncoding conversion.target)
    | .targetExhausted => .error .bdNamErr
    | .sourceExhausted => .error .paramErr

/-- The loop of `CountFilenameExtensionChars`, over the characters from the last one on. -/
def extensionLoop (maxExtChars : ℕ) : List UInt8 → ℕ → ℕ
  | [], _ => 0
  | c :: rest, extChars =>
    if maxExtChars < extChars then 0
    else if c = 0x2E then extChars
    else if (0x20 ≤ c ∧ c ≤ 0x7F) ∨ c = 0xB5 ∨ c = 0xB9 ∨ c = 0xC6 then
      extensionLoop maxExtChars rest (extChars + 1)
    else 0

/-- `CountFilenameExtensionChars`. -/
def countFilenameExtensionChars (filename : List UInt8) : ℕ :=
  if filename.length < 3 then 0
  else extensionLoop (if filename.length < 7 then filename.length - 2 else 5) filename.reverse 0

/-- `IsHexDigit`. -/
def isHexDigit (c : UInt8) : Bool := (0x30 ≤ c && c ≤ 0x39) || (0x41 ≤ c && c ≤ 0x46)

/-- `HexStringToInteger`, on hexadecimal digits. -/
def hexStringToInteger (digits : List UInt8) : ℕ :=
  digits.foldl (fun value c =>
    (value * 16 + if c ≤ 0x39 then c.toNat - 0x30 else 10 + (c.toNat - 0x41)) % 2 ^ 32) 0

/-- The loop of `GetEmbeddedFileID`, over the characters from the last one on; `digits` have been
read.  The result is the id and the length of the prefix. -/
def fileIDLoop : List UInt8 → List UInt8 → ℕ × ℕ
  | [], _ => (0, 0)
  | c :: rest, digits =>
    if c = 0x23 then
      if digits.length + 1 < 3 then (0, 0) else (hexStringToInteger digits, rest.length)
    else if isHexDigit c then fileIDLoop rest (c :: digits)
    else (0, 0)

/-- `GetEmbeddedFileID`. -/
def getEmbeddedFileID (filename : List UInt8) : ℕ × ℕ :=
  if filename.length < 4 then (0, 0)
  else
    let extChars := if 6 ≤ filename.length then countFilenameExtensionChars filename else 0
    let length := if 0 < extChars then filename.length - (extChars + 1) else filename.length
    fileIDLoop (filename.take length).reverse []

/-! ## Finding a node -/

/-- `LocateCatalogNode`, which is also `LocateCatalogNodeByKey`: a thread is followed to its node. -/
def locateCatalogNode (records : Records) (key : CatalogKey) : Option (CatalogKey × CatalogRecord) :=
  match searchBTreeRecord records key with
  | none => none
  | some (foundKey, .thread kind parentID nodeName) =>
    if parentID ≠ 0 then searchBTreeRecord records ⟨parentID, nodeName⟩
    else some (foundKey, .thread kind parentID nodeName)
  | some found => some found

/-- `LocateCatalogNodeByMangledName`. -/
def locateCatalogNodeByMangledName (records : Records) (folderID : ℕ) (name : List UInt8) :
    Option (CatalogKey × CatalogRecord) :=
  if name = [] then none
  else
    let (fileID, prefixlen) := getEmbeddedFileID name
    if fileID < kHFSFirstUserCatalogNodeID then none
    else
      match locateCatalogNode records ⟨fileID, []⟩ with
      | none => none
      | some (key, data) =>
        if folderID ≠ key.parentID then none
        else
          let nodeName := (convertUTF16toUTF8 64 key.nodeName).target
          if nodeName.length < prefixlen ∨ nodeName.take prefixlen ≠ name.take prefixlen then none
          else some (key, data)

/-- How `DeleteCatalogNode` and `MoveRenameCatalogNode` find their node: by the key, or else by an id
embedded in the name. -/
def locateSubject (records : Records) (key : CatalogKey) (name : List UInt8) :
    Option (CatalogKey × CatalogRecord) :=
  match locateCatalogNode records key with
  | some found => some found
  | none => locateCatalogNodeByMangledName records key.parentID name

/-! ## Counters -/

/-- The volume: its catalog, and the counters of the `ExtendedVCB`. -/
structure Volume where
  records : Records
  vcbNxtCNID : ℕ
  vcbFilCnt : ℕ
  vcbDirCnt : ℕ
  vcbNmFls : ℕ
  vcbNmRtDirs : ℕ
  deriving DecidableEq, Repr

/-- A counter of `w` bits is changed. -/
def adjust (w count : ℕ) (delta : ℤ) : ℕ := ((count + delta) % 2 ^ w).toNat

/-- `AdjustVolumeCounts`. -/
def Volume.adjustVolumeCounts (volume : Volume) (kind : Kind) (delta : ℤ) : Volume :=
  match kind with
  | .folder => { volume with vcbDirCnt := adjust 32 volume.vcbDirCnt delta }
  | .file => { volume with vcbFilCnt := adjust 32 volume.vcbFilCnt delta }

/-- The valence of a folder record is changed. -/
def CatalogRecord.adjustValence (delta : ℤ) : CatalogRecord → CatalogRecord
  | .folder folderID valence textEncoding => .folder folderID (adjust 32 valence delta) textEncoding
  | record => record

/-- The root folder's own counters, if it is the folder that was changed. -/
def Volume.adjustRootCounts (volume : Volume) (kind : Kind) (delta : ℤ) (folder : CatalogRecord) :
    Volume :=
  match folder, kind with
  | .folder 2 _ _, .folder => { volume with vcbNmRtDirs := adjust 16 volume.vcbNmRtDirs delta }
  | .folder 2 _ _, .file => { volume with vcbNmFls := adjust 16 volume.vcbNmFls delta }
  | _, _ => volume

/-- `UpdateFolderCount` of the folder that is found by a key. -/
def Volume.updateFolderCount (volume : Volume) (key : CatalogKey) (kind : Kind) (delta : ℤ) :
    OSErr × Volume :=
  match locateCatalogNode volume.records key with
  | none => (.cmNotFound, volume)
  | some (key, data) =>
    match replaceBTreeRecord volume.records key (data.adjustValence delta) with
    | none => (.btNotFound, volume)
    | some records => (.noErr, { volume with records := records }.adjustRootCounts kind delta data)

/-! ## `CreateCatalogNode` -/

/-- `InitCatalogRecord`, with the id that was taken. -/
def initCatalogRecord (kind : Kind) (nodeID textEncoding : ℕ) : CatalogRecord :=
  match kind with
  | .folder => .folder nodeID 0 textEncoding
  | .file => .file nodeID textEncoding

/-- `CreateCatalogNode`. -/
def Volume.createCatalogNode (volume : Volume) (parentID : ℕ) (name : List UInt8) (kind : Kind) :
    OSErr × Volume :=
  match searchBTreeRecord volume.records ⟨parentID, []⟩ with
  | none => (.cmNotFound, volume)
  | some (_, .thread .folder parentsParentID parentName) =>
    match buildCatalogKeyUTF8 parentID name with
    | .error err => (err, volume)
    | .ok (nodeKey, textEncoding) =>
      let nodeID := volume.vcbNxtCNID
      let volume := { volume with vcbNxtCNID := adjust 32 volume.vcbNxtCNID 1 }
      match insertBTreeRecord volume.records nodeKey (initCatalogRecord kind nodeID textEncoding) with
      | none => (.cmExists, volume)
      | some records =>
        match insertBTreeRecord records ⟨nodeID, []⟩
            (.thread kind nodeKey.parentID nodeKey.nodeName) with
        | none =>
          (.cmExists, { volume with records := (deleteBTreeRecord records nodeKey).getD records })
        | some records =>
          match { volume with records := records }.updateFolderCount ⟨parentsParentID, parentName⟩
              kind 1 with
          | (.noErr, volume) => (.noErr, volume.adjustVolumeCounts kind 1)
          | (err, volume) => (err, volume)
  | some _ => (.dirNFErr, volume)

/-! ## `DeleteCatalogNode` -/

/-- The kind and id of a folder or file record. -/
def CatalogRecord.node? : CatalogRecord → Option (Kind × ℕ)
  | .folder folderID _ _ => some (.folder, folderID)
  | .file fileID _ => some (.file, fileID)
  | .thread _ _ _ => none

/-- The folder record of a folder that is not empty. -/
def CatalogRecord.occupied : CatalogRecord → Bool
  | .folder _ valence _ => valence ≠ 0
  | _ => false

/-- `DeleteCatalogNode`. -/
def Volume.deleteCatalogNode (volume : Volume) (parentID : ℕ) (name : List UInt8) :
    OSErr × Volume :=
  match buildCatalogKeyUTF8 parentID name with
  | .error err => (err, volume)
  | .ok (key, _) =>
    match locateSubject volume.records key name with
    | none => (.cmNotFound, volume)
    | some (key, data) =>
      match data.node? with
      | none => (.cmNotFound, volume)
      | some (kind, nodeID) =>
        if data.occupied then (.cmNotEmpty, volume)
        else if nodeID = fsRtDirID then (.cmRootCN, volume)
        else
          match deleteBTreeRecord volume.records key with
          | none => (.btNotFound, volume)
          | some records =>
            -- errors of the deletion of the thread are ignored
            let records :=
              if nodeID ≠ 0 then (deleteBTreeRecord records ⟨nodeID, []⟩).getD records else records
            match { volume with records := records }.updateFolderCount ⟨key.parentID, []⟩ kind (-1) with
            | (.noErr, volume) => (.noErr, volume.adjustVolumeCounts kind (-1))
            | (err, volume) => (err, volume)

/-! ## `MoveRenameCatalogNode` -/

/-- The names are the same: the lengths are kept in 16 bits. -/
def sameName (srcName dstName : List UInt8) : Bool :=
  srcName.length % 2 ^ 16 = dstName.length % 2 ^ 16 ∧ srcName = dstName.take srcName.length

/-- The loop over the folders above the destination; nothing when `fuel` runs out. -/
def ancestorLoop (records : Records) (srcFolderID : ℕ) : ℕ → ℕ → Option OSErr
  | fuel, ancestorParentID =>
    if ancestorParentID ≤ fsRtDirID then some .noErr
    else
      match fuel with
      | 0 => none
      | fuel + 1 =>
        match locateCatalogNode records ⟨ancestorParentID, []⟩ with
        | none => some .cmNotFound
        | some (tempKey, _) =>
          if srcFolderID = tempKey.parentID then some .badMovErr
          else ancestorLoop records srcFolderID fuel tempKey.parentID

/-- Whether a node may be moved into a folder: a folder must not get into itself. -/
def properMove (records : Records) (fuel : ℕ) (srcRecord : CatalogRecord) (dstParentID : ℕ)
    (dstFolderKey : CatalogKey) : Option OSErr :=
  match srcRecord with
  | .folder srcFolderID _ _ =>
    if srcFolderID = fsRtDirID ∨ srcFolderID = dstParentID ∨ srcFolderID = dstFolderKey.parentID then
      some .badMovErr
    else ancestorLoop records srcFolderID fuel dstFolderKey.parentID
  | _ => some .noErr

/-- A node gets a new text encoding hint. -/
def CatalogRecord.setTextEncoding (textEncoding : ℕ) : CatalogRecord → CatalogRecord
  | .folder folderID valence _ => .folder folderID valence textEncoding
  | .file fileID _ => .file fileID textEncoding
  | record => record

/-- The record is inserted under its new key, or the errors with what they leave behind.  A name that
exists may be the node's own one in another case: then the old record is deleted first, and the
second result is true. -/
def insertMoved (records : Records) (srcKey : CatalogKey) (srcRecord : CatalogRecord)
    (dstKey : CatalogKey) (sameFolder isNewName : Bool) :
    Except (OSErr × Records) (Records × Bool) :=
  match insertBTreeRecord records dstKey srcRecord with
  | some records => .ok (records, false)
  | none =>
    if !sameFolder || !isNewName then .error (.cmExists, records)
    else
      match searchBTreeRecord records dstKey with
      | none => .error (.cmNotFound, records)
      | some (_, tmpRecord) =>
        if srcRecord.node? = none ∨ srcRecord.node? ≠ tmpRecord.node? then .error (.cmExists, records)
        else
          match deleteBTreeRecord records srcKey with
          | none => .error (.btNotFound, records)
          | some deleted =>
            match insertBTreeRecord deleted dstKey srcRecord with
            | none => .error (.btExists, deleted)
            | some records => .ok (records, true)

/-- A thread is changed to say another folder, and another name. -/
def CatalogRecord.redirect (parent : Option ℕ) (name : Option (List UInt16)) :
    CatalogRecord → CatalogRecord
  | .thread kind parentID nodeName => .thread kind (parent.getD parentID) (name.getD nodeName)
  | record => record

/-- The thread of a node is rewritten. -/
def rewriteThread (records : Records) (threadID : ℕ) (rewrite : CatalogRecord → CatalogRecord) :
    Except (OSErr × Records) Records :=
  match searchBTreeRecord records ⟨threadID, []⟩ with
  | none => .error (.cmNotFound, records)
  | some (threadKey, threadRecord) =>
    match deleteBTreeRecord records threadKey with
    | none => .error (.btNotFound, records)
    | some deleted =>
      match insertBTreeRecord deleted threadKey (rewrite threadRecord) with
      | none => .error (.btExists, deleted)
      | some records => .ok records

/-- All changes to the record of the node and to its thread. -/
def moveRecords (records : Records) (srcKey : CatalogKey) (srcRecord : CatalogRecord)
    (dstKey : CatalogKey) (dstParentID : ℕ) (isNewName : Bool) :
    Except (OSErr × Records) Records :=
  let sameFolder : Bool := srcKey.parentID = dstParentID
  match insertMoved records srcKey srcRecord dstKey sameFolder isNewName with
  | .error failure => .error failure
  | .ok (records, isOrigDeleted) =>
    let threadID := (srcRecord.node?.map Prod.snd).getD 0
    let rewrite := CatalogRecord.redirect (if sameFolder then none else some dstParentID)
      (if isNewName then some dstKey.nodeName else none)
    match if threadID ≠ 0 then rewriteThread records threadID rewrite else .ok records with
    | .error (err, records) => .error (err, (deleteBTreeRecord records dstKey).getD records)
    | .ok records =>
      if isOrigDeleted then .ok records
      else
        match deleteBTreeRecord records srcKey with
        | none => .error (.btNotFound, (deleteBTreeRecord records dstKey).getD records)
        | some records => .ok records

/-- The part of `MoveRenameCatalogNode` that changes the volume.  `dstFolderKey` is not used
when the node stays in its folder. -/
def Volume.relocate (volume : Volume) (srcKey : CatalogKey) (srcRecord : CatalogRecord)
    (dstKey : CatalogKey) (dstParentID : ℕ) (isNewName : Bool) (textEncoding : ℕ)
    (dstFolderKey : CatalogKey) : OSErr × Volume :=
  let srcRecord := if isNewName then srcRecord.setTextEncoding textEncoding else srcRecord
  match moveRecords volume.records srcKey srcRecord dstKey dstParentID isNewName with
  | .error (err, records) => (err, { volume with records := records })
  | .ok records =>
    let volume := { volume with records := records }
    if srcKey.parentID ≠ dstParentID then
      let kind := (srcRecord.node?.map Prod.fst).getD .file
      (volume.updateFolderCount ⟨srcKey.parentID, []⟩ kind (-1)).2.updateFolderCount dstFolderKey
        kind 1
    else (.noErr, volume)

/-- `MoveRenameCatalogNode`; nothing when the loop over the ancestors runs out of `fuel`. -/
def Volume.moveRenameCatalogNode (volume : Volume) (fuel srcParentID : ℕ) (srcName : List UInt8)
    (dstParentID : ℕ) (dstName : List UInt8) : Option (OSErr × Volume) :=
  match buildCatalogKeyUTF8 srcParentID srcName with
  | .error err => some (err, volume)
  | .ok (srcKey, srcEncoding) =>
    let isNewName := !sameName srcName dstName
    match if isNewName then buildCatalogKeyUTF8 dstParentID dstName
        else .ok (⟨dstParentID, srcKey.nodeName⟩, srcEncoding) with
    | .error err => some (err, volume)
    | .ok (dstKey, textEncoding) =>
      match locateSubject volume.records srcKey srcName with
      | none => some (.cmNotFound, volume)
      | some (srcKey, srcRecord) =>
        if srcKey.parentID = dstParentID then
          if isNewName then
            some (volume.relocate srcKey srcRecord dstKey dstParentID isNewName textEncoding srcKey)
          else some (.noErr, volume)
        else
          match locateCatalogNode volume.records ⟨dstParentID, []⟩ with
          | some (dstFolderKey, .folder folderID _ _) =>
            match properMove volume.records fuel srcRecord folderID dstFolderKey with
            | some .noErr => some (volume.relocate srcKey srcRecord dstKey folderID isNewName
                textEncoding dstFolderKey)
            | some err => some (err, volume)
            | none => none
          | some _ => some (.badMovErr, volume)
          | none => some (.cmNotFound, volume)

end Darwin.Hfs.Catalog
