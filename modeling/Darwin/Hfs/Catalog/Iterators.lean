import Darwin.Lib.MruList
import Mathlib.Algebra.Order.Ring.Int

/-!
# Catalog iterators

`CatalogIterators.c` keeps sixteen iterators over the folders of all volumes, in the order of their
last use.  A search that goes through a folder entry by entry takes the iterator that stands closest
before, locks it, and moves it on.

## Main definitions

* `getCatalogIterator`, `releaseCatalogIterator`, `updateCatalogIterator`, `ageCatalogIterator`,
  `trashCatalogIterator` - the calls; a result `none` is a panic, or a call that waits for a lock
-/

namespace Darwin.Hfs.CatalogIterators

open Darwin.Lib

/-! ## The cache -/

def kCatalogIteratorCount : ℕ := 16

/-- The iterator types. -/
inductive IteratorType where
  | kIterateAll
  | kIterateFilesOnly
  deriving DecidableEq, Repr

/-- The name types. -/
inductive NameType where
  | kShortPascalName
  | kShortUnicodeName
  | kLongUnicodeName
  deriving DecidableEq, Repr

/-- `CatalogIterator`.  A short name is kept in `folderName`; a long one in the buffer of the
cache. -/
structure CatalogIterator where
  iteratorType : IteratorType
  volRefNum : BitVec 16
  folderID : BitVec 32
  currentIndex : BitVec 16
  fileIndex : BitVec 16
  btreeNodeHint : BitVec 32
  btreeIndexHint : BitVec 16
  nameType : NameType
  parentID : BitVec 32
  folderName : List (BitVec 16)
  deriving DecidableEq, Repr

/-- What an iterator takes from a B-tree iterator. -/
structure BTreeIterator where
  nodeNum : BitVec 32
  index : BitVec 16
  parentID : BitVec 32
  nodeName : List (BitVec 16)
  deriving DecidableEq, Repr

/-- `CatalogCacheGlobals` with its iterators, which are numbered from 0.  In `order`, `mru` and
`nextMRU` are `first` and `next`, `lru` and `nextLRU` are `last` and `prev`.  The lock of an
iterator is held by a thread or by none. -/
structure Cache where
  iteratorCount : ℕ
  order : Ends ℕ
  iterators : ℕ → CatalogIterator
  lock : ℕ → Option ℕ
  longName : List (BitVec 16)

/-- The fields of `ExtendedVCB` that the calls read. -/
structure Volume where
  vcbVRefNum : BitVec 16
  isHFSPlus : Bool
  deriving DecidableEq, Repr

def Cache.set (c : Cache) (iterator : ℕ) (value : CatalogIterator) : Cache :=
  { c with iterators := Function.update c.iterators iterator value }

def Cache.setLock (c : Cache) (iterator : ℕ) (holder : Option ℕ) : Cache :=
  { c with lock := Function.update c.lock iterator holder }

/-! ## Locks -/

/-- `CI_SLEEPLESS_LOCK`: inside, `none` is `EBUSY`. -/
def ciSleeplessLock (thread iterator : ℕ) (c : Cache) : Option (Option Cache) :=
  match c.lock iterator with
  | none => some (some (c.setLock iterator (some thread)))
  -- locking against myself
  | some holder => if holder = thread then none else some none

/-- `CI_LOCK_FROM_LIST`. -/
def ciLockFromList (thread iterator : ℕ) (c : Cache) : Option Cache :=
  match c.lock iterator with
  | none => some (c.setLock iterator (some thread))
  | some _ => none

/-- `CI_UNLOCK`.  Nothing happens to a lock that nobody holds. -/
def ciUnlock (thread iterator : ℕ) (c : Cache) : Option Cache :=
  match c.lock iterator with
  | none => some c
  | some holder => if holder = thread then some (c.setLock iterator none) else none

/-! ## The list -/

/-- The loop of `InitCatalogCache`, for the `left` iterators from `i` on. -/
def linkIterators (lastIterator : ℕ) : ℕ → ℕ → Ends ℕ → Ends ℕ
  | 0, _, order => order
  | left + 1, i, order =>
    let order := order.setNext (some i) (if i = lastIterator then none else some (i + 1))
    let order := order.setPrev (some i) (if i = 0 then none else some (i - 1))
    linkIterators lastIterator left (i + 1) order

/-- `InitCatalogCache` when there is memory, which is cleared. -/
def initCatalogCache : Cache where
  iteratorCount := kCatalogIteratorCount
  order :=
    let lastIterator := kCatalogIteratorCount - 1
    linkIterators lastIterator kCatalogIteratorCount 0
      ⟨some 0, some lastIterator, fun _ => none, fun _ => none⟩
  iterators _ := ⟨.kIterateAll, 0, 0, 0, 0, 0, 0, .kShortPascalName, 0, []⟩
  lock _ := none
  longName := []

/-- `InsertCatalogIteratorAsMRU`. -/
def insertCatalogIteratorAsMRU (c : Cache) (iterator : ℕ) : Option Cache :=
  (c.order.toFront iterator).map fun order => { c with order }

/-- `InsertCatalogIteratorAsLRU`. -/
def insertCatalogIteratorAsLRU (c : Cache) (iterator : ℕ) : Option Cache :=
  (c.order.toBack iterator).map fun order => { c with order }

/-! ## The calls -/

/-- `AgeCatalogIterator`. -/
def ageCatalogIterator (catalogIterator : ℕ) (c : Cache) : Option Cache :=
  insertCatalogIteratorAsLRU c catalogIterator

/-- `ReleaseCatalogIterator`. -/
def releaseCatalogIterator (thread catalogIterator : ℕ) (c : Cache) : Option Cache :=
  ciUnlock thread catalogIterator c

/-- The loop of `TrashCatalogIterator`.  A loop that visits the same iterators for ever runs out of
`fuel`. -/
def trashLoop (volRefNum : BitVec 16) (folderID : BitVec 32) :
    ℕ → Option ℕ → Cache → Option Cache
  | _, none, c => some c
  | 0, some _, _ => none
  | fuel + 1, some iterator, c =>
    if (c.iterators iterator).volRefNum ≠ volRefNum then
      trashLoop volRefNum folderID fuel (c.order.next iterator) c
    else if folderID = 0 ∨ folderID = (c.iterators iterator).folderID then
      let c := c.set iterator { c.iterators iterator with volRefNum := 0, folderID := 0 }
      match c.order.next iterator with
      | none => some c
      | some next =>
        match insertCatalogIteratorAsLRU c iterator with
        | none => none
        | some c => trashLoop volRefNum folderID fuel (some next) c
    else trashLoop volRefNum folderID fuel (c.order.next iterator) c

/-- `TrashCatalogIterator`.  An iterator is visited at most twice, once more at the end of the list
when it was trashed. -/
def trashCatalogIterator (volume : Volume) (folderID : BitVec 32) (c : Cache) : Option Cache :=
  trashLoop volume.vcbVRefNum folderID (2 * c.iteratorCount) c.order.first c

/-- What `GetCatalogIterator` looks for. -/
structure Request where
  volume : Volume
  folderID : BitVec 32
  index : BitVec 16
  iterationType : IteratorType
  deriving DecidableEq, Repr

/-- The volume, the folder and the type are those asked for. -/
def Request.Matches (request : Request) (iterator : CatalogIterator) : Prop :=
  iterator.volRefNum = request.volume.vcbVRefNum ∧ iterator.folderID = request.folderID ∧
    iterator.iteratorType = request.iterationType

instance (request : Request) (iterator : CatalogIterator) :
    Decidable (request.Matches iterator) := instDecidableAnd

/-- `iteratorIndex`. -/
def Request.iteratorIndex (request : Request) (iterator : CatalogIterator) : BitVec 16 :=
  if request.iterationType = .kIterateFilesOnly then iterator.fileIndex else iterator.currentIndex

/-- `delta`: how far an iterator is from the requested index. -/
def Request.delta (request : Request) (iterator : CatalogIterator) : BitVec 16 :=
  let iteratorIndex := request.iteratorIndex iterator
  if request.index > iteratorIndex then request.index - iteratorIndex
  else if request.iterationType = .kIterateAll then iteratorIndex - request.index
  else 0xFFFF

/-- The loop of `GetCatalogIterator`, with `bestDelta` and `bestIterator`. -/
def searchLoop (thread : ℕ) (request : Request) :
    ℕ → Option ℕ → BitVec 16 → Option ℕ → Cache → Option (BitVec 16 × Option ℕ × Cache)
  | _, none, bestDelta, bestIterator, c => some (bestDelta, bestIterator, c)
  | 0, some _, _, _, _ => none
  | fuel + 1, some iterator, bestDelta, bestIterator, c =>
    if ¬ request.Matches (c.iterators iterator) then
      searchLoop thread request fuel (c.order.next iterator) bestDelta bestIterator c
    else
      match ciSleeplessLock thread iterator c with
      | none => none
      | some none => searchLoop thread request fuel (c.order.next iterator) bestDelta bestIterator c
      | some (some c) =>
        if request.iteratorIndex (c.iterators iterator) = request.index then
          some (0, some iterator, c)
        else
          let delta := request.delta (c.iterators iterator)
          if delta < bestDelta ∧ delta = 1 then some (delta, some iterator, c)
          else
            let better := delta < bestDelta
            match ciUnlock thread iterator c with
            | none => none
            | some c =>
              searchLoop thread request fuel (c.order.next iterator)
                (if better then delta else bestDelta)
                (if better then some iterator else bestIterator) c

/-- An iterator that starts over. -/
def Request.fresh (request : Request) (iterator : CatalogIterator) : CatalogIterator :=
  { iterator with
    volRefNum := request.volume.vcbVRefNum
    folderID := request.folderID
    iteratorType := request.iterationType
    currentIndex := 0
    fileIndex := 0xFFFF
    btreeNodeHint := 0
    btreeIndexHint := 0
    parentID := request.folderID
    folderName := []
    nameType := if request.volume.isHFSPlus then .kShortUnicodeName else .kShortPascalName }

/-- `GetCatalogIterator`. -/
def getCatalogIterator (thread : ℕ) (request : Request) (c : Cache) : Option (ℕ × Cache) := do
  let (bestDelta, bestIterator, c) ←
    searchLoop thread request c.iteratorCount c.order.first 0xFFFF none c
  let (bestIterator, c) ← match bestIterator with
    | some best => if request.index < bestDelta then recycle c else some (best, c)
    | none => recycle c
  let c ← insertCatalogIteratorAsMRU c bestIterator
  some (bestIterator, c)
where
  /-- Start over with a new iterator. -/
  recycle (c : Cache) : Option (ℕ × Cache) := do
    let bestIterator ← c.order.last
    let c ← ciLockFromList thread bestIterator c
    some (bestIterator, c.set bestIterator (request.fresh (c.iterators bestIterator)))

/-- The loop of `PrepareForLongName`: the first iterator with a long name is trashed. -/
def prepareLoop (thread : ℕ) : ℕ → Option ℕ → Cache → Option Cache
  | _, none, c => some c
  | 0, some _, _ => none
  | fuel + 1, some iter, c =>
    if (c.iterators iter).nameType = .kLongUnicodeName then do
      let c ←
        (if c.order.next iter ≠ none then insertCatalogIteratorAsLRU c iter else some c : Option _)
      let c ← ciLockFromList thread iter c
      let c := c.set iter { c.iterators iter with volRefNum := 0, folderID := 0 }
      ciUnlock thread iter c
    else prepareLoop thread fuel (c.order.next iter) c

/-- `PrepareForLongName`. -/
def prepareForLongName (thread iterator : ℕ) (c : Cache) : Option Cache := do
  let c ← prepareLoop thread c.iteratorCount c.order.first c
  some (c.set iterator { c.iterators iterator with nameType := .kLongUnicodeName })

/-- The name is too long for an iterator: `nameSize`, an unsigned short, is greater than the size of
`UniStr63`. -/
def NeedsLongName (name : List (BitVec 16)) : Prop := (name.length + 1) * 2 % 2 ^ 16 > 128

instance (name : List (BitVec 16)) : Decidable (NeedsLongName name) :=
  inferInstanceAs (Decidable (_ > _))

/-- `UpdateCatalogIterator`. -/
def updateCatalogIterator (thread : ℕ) (btreeIterator : BTreeIterator) (catalogIterator : ℕ)
    (c : Cache) : Option Cache :=
  let c := c.set catalogIterator { c.iterators catalogIterator with
    btreeNodeHint := btreeIterator.nodeNum
    btreeIndexHint := btreeIterator.index
    parentID := btreeIterator.parentID }
  match (c.iterators catalogIterator).nameType with
  | .kShortPascalName => some (setName btreeIterator.nodeName c)
  | .kShortUnicodeName =>
    if NeedsLongName btreeIterator.nodeName then
      (prepareForLongName thread catalogIterator c).map fun c =>
        { c with longName := btreeIterator.nodeName }
    else some (setName btreeIterator.nodeName c)
  | .kLongUnicodeName => some { c with longName := btreeIterator.nodeName }
where
  setName (name : List (BitVec 16)) (c : Cache) : Cache :=
    c.set catalogIterator { c.iterators catalogIterator with folderName := name }

end Darwin.Hfs.CatalogIterators
