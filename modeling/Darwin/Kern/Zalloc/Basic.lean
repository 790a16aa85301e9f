import Darwin.Lib.Ranges
import Mathlib.Algebra.Order.Ring.Int

/-!
# The zone allocator and its free space

The free lists of `kern/zalloc.c`, from which zones get their elements.  An entry of a free list is
a header at the front of the region it stands for, so that the lists live in the memory they
manage.  Memory is a store of words; a pointer to a `next` field is the address of the entry, and
the head of a list is a word of its own.  A loop that does not end within the given number of turns
gives no result.
-/

namespace Darwin.Kern.Zalloc

open Darwin.Lib

section Memory

/-- The words of the memory, by address. -/
abbrev Memory := ℕ → ℕ

def Memory.set (mem : Memory) (address value : ℕ) : Memory := Function.update mem address value

/-- `entry->length`; `entry->next` is the word at the entry itself. -/
def lengthOf (mem : Memory) (entry : ℕ) : ℕ := mem (entry + 4)

def Memory.setNext (mem : Memory) (entry next : ℕ) : Memory := mem.set entry next

def Memory.setLength (mem : Memory) (entry length : ℕ) : Memory := mem.set (entry + 4) length

def Memory.setPred (mem : Memory) (entry pred : ℕ) : Memory := mem.set (entry + 8) pred

/-- `ZONE_MIN_ALLOC`. -/
def zoneMinAlloc : ℕ := 16

/-- `round_page`, on 32-bit addresses. -/
def roundPage (page address : ℕ) : ℕ := (address + (page - 1)) % 4294967296 / page * page

/-- `trunc_page`. -/
def truncPage (page address : ℕ) : ℕ := address / page * page

/-- The difference of two 32-bit values. -/
def sub32 (a b : ℕ) : ℕ := (a + 4294967296 - b) % 4294967296

/-- A 32-bit value as an `integer_t`. -/
def toInteger (value : ℕ) : ℤ := if value < 2147483648 then value else value - 4294967296

end Memory

section Hints

/-- `struct zone_free_space`.  The list of the entries starts at the word `entries`, and the hint
table is indexed from 1 on. -/
structure FreeSpace where
  allocUnit : ℕ
  allocMax : ℕ
  entries : ℕ
  numEntries : ℤ
  hashShift : ℕ
  hints : ℤ → ℕ
  numHints : ℤ

def FreeSpace.setHint (space : FreeSpace) (hash : ℤ) (entry : ℕ) : FreeSpace :=
  { space with hints := Function.update space.hints hash entry }

/-- `zone_free_space_hash`: the index of the hint for a size. -/
def zoneFreeSpaceHash (space : FreeSpace) (size : ℕ) : ℤ :=
  let hash := toInteger (size >>> space.hashShift)
  if hash > space.numHints then space.numHints else hash

/-- The search `while ((cur = *last) != 0 && ...) last = &cur->next`: the place where it ends. -/
def walk (mem : Memory) (goesOn : ℕ → Bool) : ℕ → ℕ → Option ℕ
  | 0, _ => none
  | turns + 1, last =>
    if mem last ≠ 0 ∧ goesOn (mem last) then walk mem goesOn turns (mem last) else some last

/-- The search for the next entry with the hint index `hash`, after `entry`: of the same length, or
in the last bucket of any length from `alloc_max` on. -/
def nextHint (turns : ℕ) (space : FreeSpace) (mem : Memory) (hash : ℤ) (entry length : ℕ) :
    Option ℕ :=
  let goesOn (cur : ℕ) : Bool :=
    if hash < space.numHints then lengthOf mem cur ≠ length else lengthOf mem cur < space.allocMax
  match walk mem goesOn turns entry with
  | none => none
  | some last => some (mem last)

/-- What `zone_free_space_hint_insert` and its kin share: an entry of this length is put in. -/
def hintPut (space : FreeSpace) (entry length : ℕ) : FreeSpace :=
  let hash := zoneFreeSpaceHash space length
  if space.hints hash = 0 ∨ entry < space.hints hash then space.setHint hash entry else space

/-- What `zone_free_space_hint_delete` and its kin share: the entry that was at `old_entry`, with
this length, is taken out, and the next one is searched for from `entry` on. -/
def hintDrop (turns : ℕ) (space : FreeSpace) (mem : Memory) (entry oldLength oldEntry : ℕ) :
    Option FreeSpace :=
  let hash := zoneFreeSpaceHash space oldLength
  if oldEntry = space.hints hash then
    match nextHint turns space mem hash entry oldLength with
    | none => none
    | some cur => some (space.setHint hash cur)
  else some space

/-- `zone_free_space_hint_insert`. -/
def hintInsert (space : FreeSpace) (mem : Memory) (entry : ℕ) : FreeSpace :=
  hintPut space entry (lengthOf mem entry)

/-- `zone_free_space_hint_delete`. -/
def hintDelete (turns : ℕ) (space : FreeSpace) (mem : Memory) (entry : ℕ) : Option FreeSpace :=
  hintDrop turns space mem entry (lengthOf mem entry) entry

/-- The update that `zone_free_space_hint_prepend` and `zone_free_space_hint_append` make where the
index has changed. -/
def hintMove (turns : ℕ) (space : FreeSpace) (mem : Memory) (entry oldLength oldEntry : ℕ) :
    Option FreeSpace :=
  match hintDrop turns space mem entry oldLength oldEntry with
  | none => none
  | some space => some (hintPut space entry (lengthOf mem entry))

/-- `zone_free_space_hint_prepend`. -/
def hintPrepend (turns : ℕ) (space : FreeSpace) (mem : Memory) (entry oldLength oldEntry : ℕ) :
    Option FreeSpace :=
  let newHash := zoneFreeSpaceHash space (lengthOf mem entry)
  let oldHash := zoneFreeSpaceHash space oldLength
  if oldHash ≠ newHash then hintMove turns space mem entry oldLength oldEntry
  else if oldEntry = space.hints oldHash then some (space.setHint oldHash entry)
  else some space

/-- `zone_free_space_hint_append`. -/
def hintAppend (turns : ℕ) (space : FreeSpace) (mem : Memory) (entry oldLength : ℕ) :
    Option FreeSpace :=
  let newHash := zoneFreeSpaceHash space (lengthOf mem entry)
  let oldHash := zoneFreeSpaceHash space oldLength
  if oldHash ≠ newHash then hintMove turns space mem entry oldLength entry else some space

/-- The rest of `zone_free_space_lookup`, from the hint `hash` on. -/
def lookupHints (space : FreeSpace) (mem : Memory) (size : ℕ) :
    ℕ → ℤ → Option (ℕ × FreeSpace)
  | 0, _ => none
  | turns + 1, hash =>
    let entry := space.hints hash
    if hash < space.numHints then
      if entry ≠ 0 then
        match nextHint turns space mem hash entry (lengthOf mem entry) with
        | none => none
        | some cur => some (entry, space.setHint hash cur)
      else lookupHints space mem size turns (hash + 1)
    else if entry ≠ 0 then
      if lengthOf mem entry < size then
        match walk mem (fun cur => lengthOf mem cur < size) turns entry with
        | none => none
        | some last => some (mem last, space)
      else
        match nextHint turns space mem hash entry (lengthOf mem entry) with
        | none => none
        | some cur => some (entry, space.setHint hash cur)
    else some (0, space)

/-- `zone_free_space_lookup`: an entry of at least this size, or 0.  It is taken off the hints. -/
def zoneFreeSpaceLookup (turns : ℕ) (space : FreeSpace) (mem : Memory) (size : ℕ) :
    Option (ℕ × FreeSpace) :=
  let entry := mem space.entries
  if entry = 0 then some (0, space)
  else if lengthOf mem entry ≥ size then
    match hintDelete turns space mem entry with
    | none => none
    | some space => some (entry, space)
  else lookupHints space mem size turns (zoneFreeSpaceHash space size)

end Hints

section Space

/-- A new entry behind `last`, with `next` behind it. -/
def Memory.link (mem : Memory) (last entry length next : ℕ) : Memory :=
  let mem := mem.setLength entry length
  let mem := mem.setNext entry next
  let mem := if next ≠ 0 then mem.setPred next entry else mem
  let mem := mem.setPred entry last
  mem.setNext last entry

/-- The entry behind `last` is taken out, and `next` was behind it. -/
def Memory.unlink (mem : Memory) (last next : ℕ) : Memory :=
  let mem := mem.setNext last next
  if next ≠ 0 then mem.setPred next last else mem

/-- `zone_free_space_add`: the new element, from a new region of memory. -/
def zoneFreeSpaceAdd (turns : ℕ) (space : FreeSpace) (mem : Memory)
    (size newSpace spaceToAdd : ℕ) : Option (ℕ × Memory × FreeSpace) :=
  let goesOn (cur : ℕ) : Bool := cur < newSpace && cur + lengthOf mem cur ≠ newSpace
  match walk mem goesOn turns space.entries with
  | none => none
  | some last =>
    let cur := mem last
    if cur = 0 ∨ cur + lengthOf mem cur < newSpace then
      if sub32 spaceToAdd size ≥ zoneMinAlloc then
        let last := if cur ≠ 0 then cur else last
        let cur := newSpace + size
        let mem := mem.link last cur (sub32 spaceToAdd size) (mem last)
        some (newSpace, mem, hintInsert { space with numEntries := space.numEntries + 1 } mem cur)
      else some (newSpace, mem, space)
    else if cur + lengthOf mem cur = newSpace then
      match hintDelete turns space mem cur with
      | none => none
      | some space =>
        let new := cur + size
        let mem := mem.link last new (sub32 (lengthOf mem cur + spaceToAdd) size) (mem cur)
        some (cur, mem, hintInsert space mem new)
    else some (newSpace, mem, space)

/-- The element is trimmed off the front of the entry that `zone_free_space_lookup` found. -/
def trimEntry (space : FreeSpace) (mem : Memory) (cur size : ℕ) : Memory × FreeSpace :=
  let last := mem (cur + 8)
  if sub32 (lengthOf mem cur) size < zoneMinAlloc then
    (mem.unlink last (mem cur), { space with numEntries := space.numEntries - 1 })
  else
    let new := cur + size
    let mem := mem.link last new (sub32 (lengthOf mem cur) size) (mem cur)
    (mem, hintInsert space mem new)

/-- A turn of the loop of `zone_collect`: the element goes back to the free space.  The search goes
on from `last`, which is where the element was put. -/
def collectElement (turns : ℕ) (space : FreeSpace) (mem : Memory) (last elem elemSize : ℕ) :
    Option (ℕ × Memory × FreeSpace) :=
  match walk mem (fun cur => cur + lengthOf mem cur < elem) turns last with
  | none => none
  | some last =>
    let cur := mem last
    if cur = 0 ∨ elem + elemSize < cur then
      let mem := mem.link last elem elemSize cur
      some (last, mem, hintInsert { space with numEntries := space.numEntries + 1 } mem elem)
    else if elem + elemSize = cur then
      let oldLength := lengthOf mem cur
      let mem := mem.link last elem (oldLength + elemSize) (mem cur)
      match hintPrepend turns space mem elem oldLength cur with
      | none => none
      | some space => some (last, mem, space)
    else if cur + lengthOf mem cur = elem then
      let oldLength := lengthOf mem cur
      let mem := mem.setLength cur (oldLength + elemSize)
      let next := mem cur
      if cur + lengthOf mem cur = next then
        -- The gap between two entries is filled.
        match hintDelete turns space mem next with
        | none => none
        | some space =>
          let mem := mem.setLength cur (lengthOf mem cur + lengthOf mem next)
          let mem := mem.unlink cur (mem next)
          match hintAppend turns { space with numEntries := space.numEntries - 1 } mem cur
            oldLength with
          | none => none
          | some space => some (last, mem, space)
      else
        match hintAppend turns space mem cur oldLength with
        | none => none
        | some space => some (last, mem, space)
    else some (last, mem, space)

/-- The part of an entry from `start` to `stop` goes, and what is left of the entry stays. -/
def clipEntry (space : FreeSpace) (mem : Memory) (last cur start stop : ℕ) : Memory × FreeSpace :=
  let after := cur + lengthOf mem cur
  if after ≠ stop then
    if cur = start then
      let mem := mem.link last stop (after - stop) (mem cur)
      (mem, hintInsert space mem stop)
    else
      let next := mem cur
      let mem := mem.setLength cur (start - cur)
      let mem := mem.link cur stop (after - stop) next
      let space := { space with numEntries := space.numEntries + 1 }
      let space := hintInsert space mem cur
      (mem, hintInsert space mem stop)
  else if cur ≠ start then
    let mem := mem.setLength cur (start - cur)
    (mem, hintInsert space mem cur)
  else (mem.unlink last (mem cur), { space with numEntries := space.numEntries - 1 })

/-- The loop of `zone_free_space_reclaim` over the entries behind `last`: the pages that are given
back are put on the list `pages`, in front. -/
def reclaimEntries (page zoneMin zoneMax walkTurns : ℕ) :
    ℕ → FreeSpace → Memory → ℕ → List Range → Option (Memory × FreeSpace × List Range)
  | 0, _, _, _, _ => none
  | turns + 1, space, mem, last, pages =>
    let cur := mem last
    if cur = 0 then some (mem, space, pages)
    else
      let start := roundPage page cur
      let stop := truncPage page (cur + lengthOf mem cur)
      if lengthOf mem cur ≥ page ∧ start < stop ∧ start ≥ zoneMin ∧ stop ≤ zoneMax then
        match hintDelete walkTurns space mem cur with
        | none => none
        | some space =>
          let (mem, space) := clipEntry space mem last cur start stop
          -- The pages that go back are chained through their own memory.
          let mem := mem.setLength start (stop - start)
          let mem := mem.setNext start ((pages.head?.map Range.start).getD 0)
          reclaimEntries page zoneMin zoneMax walkTurns turns space mem last
            (⟨start, stop - start⟩ :: pages)
      else reclaimEntries page zoneMin zoneMax walkTurns turns space mem cur pages

end Space

end Darwin.Kern.Zalloc
