import Darwin.Lib.Segments
import Mathlib.Algebra.Order.Ring.Int

/-!
# Address maps: the entries and the operations on them

An address map is a doubly linked list of entries, sorted by address.  Here the list is a list in
the order of the links, and an entry is named by an identity, so that the two cached pointers `hint`
and `first_free` can be told from the entries: they hold an identity, or nothing if they point to
the map's header.  An identity is never used twice, so a pointer to a freed entry would stay one.

The header doubles as an entry: its `start` and `end` are the bounds of the map.

`zalloc` gives the contents of the memory that a new entry is made in; `coalesce` says whether
`vm_object_coalesce` can extend an object (one reference, no pager, no shadow and no copy).

## Main definitions

* `VmMap.vmMapLookupEntry`, `VmMap.vmMapInsert`, `VmMap.vmMapFindEntry`, `VmMap.vmMapFind`,
  `VmMap.vmMapDelete`, `VmMap.vmMapRemove`, `VmMap.vmMapProtect`, `VmMap.vmMapInherit`,
  `VmMap.vmMapReallocate`
* `VmMap.view` - the function from addresses to mappings that a map stands for
-/

namespace Darwin.Vm.Map

open Darwin.Lib

/-! ## Data -/

/-- The return codes of the operations. -/
inductive KernReturn where
  | success
  | invalidAddress
  | noSpace
  | protectionFailure
  | invalidArgument
  deriving DecidableEq, Repr

/-- `VM_PROT_DEFAULT`: read and write. -/
def vmProtDefault : BitVec 32 := 3

/-- `VM_PROT_ALL`: read, write and execute. -/
def vmProtAll : BitVec 32 := 7

def vmInheritShare : BitVec 32 := 0
def vmInheritCopy : BitVec 32 := 1
def vmInheritNone : BitVec 32 := 2
def vmInheritDefault : BitVec 32 := vmInheritCopy

/-- An entry of a map: `[start, stop)` is mapped to `object` from `offset` on. -/
structure Entry (O : Type*) where
  id : ℕ
  start : ℕ
  stop : ℕ
  object : Option O
  offset : BitVec 32
  isAMap : Bool
  isShared : Bool
  isSubMap : Bool
  copyOnWrite : Bool
  inTransition : Bool
  needsWakeup : Bool
  needsCopy : Bool
  protection : BitVec 32
  maxProtection : BitVec 32
  inheritance : BitVec 32
  wiredCount : ℕ
  userWiredCount : ℕ

/-- The counters of a map: the number of entries, the size of all ranges, and the identity of the
next entry. -/
structure Counts where
  nentries : ℤ
  size : ℤ
  nextId : ℕ

/-- An address map. -/
structure VmMap (O : Type*) where
  minOffset : ℕ
  maxOffset : ℕ
  entries : List (Entry O)
  counts : Counts
  hint : Option ℕ
  firstFree : Option ℕ
  isMainMap : Bool

/-- What an address is mapped to. -/
structure Mapping (O : Type*) where
  object : Option O
  offset : BitVec 32
  protection : BitVec 32
  maxProtection : BitVec 32
  inheritance : BitVec 32

variable {O : Type*}

/-- `vm_map_create`. -/
def vmMapCreate (O : Type*) (min max : ℕ) : VmMap O where
  minOffset := min
  maxOffset := max
  entries := []
  counts := ⟨0, 0, 0⟩
  hint := none
  firstFree := none
  isMainMap := true

/-- What an entry maps an address to. -/
def Entry.mapping (e : Entry O) (address : ℕ) : Mapping O where
  object := e.object
  offset := e.offset + BitVec.ofNat 32 (address - e.start)
  protection := e.protection
  maxProtection := e.maxProtection
  inheritance := e.inheritance

/-- The entry of a list that contains an address. -/
def entryAt (l : List (Entry O)) (address : ℕ) : Option (Entry O) :=
  covering Entry.start Entry.stop l address

/-- What a list of entries maps an address to. -/
def viewList (l : List (Entry O)) (address : ℕ) : Option (Mapping O) :=
  (entryAt l address).map fun e => e.mapping address

/-- What a map maps an address to. -/
def VmMap.view (map : VmMap O) (address : ℕ) : Option (Mapping O) := viewList map.entries address

/-! ## Pointers -/

/-- The entry that a list ends with, as a pointer; an empty list comes after the header. -/
def lastId (l : List (Entry O)) : Option ℕ := l.getLast?.map Entry.id

/-- The list cut before the entry that a pointer denotes. -/
def cutAt (l : List (Entry O)) (id : ℕ) : List (Entry O) × List (Entry O) :=
  (l.takeWhile fun e => e.id != id, l.dropWhile fun e => e.id != id)

/-- The list cut before the entry that the hint denotes; the header stands for the first entry. -/
def cutHint (l : List (Entry O)) : Option ℕ → List (Entry O) × List (Entry O)
  | none => ([], l)
  | some id => cutAt l id

/-- The list cut after the entry that a pointer denotes, that is, before its `vme_next`. -/
def cutAfter (l : List (Entry O)) : Option ℕ → List (Entry O) × List (Entry O)
  | none => ([], l)
  | some id =>
    match cutAt l id with
    | (before, e :: rest) => (before ++ [e], rest)
    | (before, []) => (before, [])

/-- `vme_start` of what a pointer denotes. -/
def VmMap.startOf (map : VmMap O) : Option ℕ → ℕ
  | none => map.minOffset
  | some id => ((map.entries.find? fun e => e.id == id).map Entry.start).getD 0

/-- `vme_end` of what a pointer denotes. -/
def VmMap.stopOf (map : VmMap O) : Option ℕ → ℕ
  | none => map.maxOffset
  | some id => ((map.entries.find? fun e => e.id == id).map Entry.stop).getD 0

/-! ## Lookup -/

/-- The linear search of `vm_map_lookup_entry`, over the entries from `cur` up to `last`; `prev` is
`cur->vme_prev`. -/
def searchEntries (address : ℕ) : Option ℕ → List (Entry O) → Bool × Option ℕ
  | prev, [] => (false, prev)
  | prev, cur :: rest =>
    if address < cur.stop then
      if cur.start ≤ address then (true, some cur.id) else (false, prev)
    else searchEntries address (some cur.id) rest

/-- `vm_map_lookup_entry`: whether the address is mapped, the entry that contains or precedes it,
and the map with the new hint. -/
def VmMap.vmMapLookupEntry (map : VmMap O) (address : ℕ) : Bool × Option ℕ × VmMap O :=
  -- `cur` is the hint, or the first entry
  let cut := cutHint map.entries map.hint
  match cut.2 with
  | [] => (false, lastId cut.1, { map with hint := lastId cut.1 })
  | cur :: _ =>
    if cur.start ≤ address then
      if address < cur.stop then (true, some cur.id, map)
      else
        let result := searchEntries address (lastId cut.1) cut.2
        (result.1, result.2, { map with hint := result.2 })
    else
      let result := searchEntries address none (cut.1 ++ [cur])
      (result.1, result.2, { map with hint := result.2 })

/-! ## Clipping -/

/-- The part of an entry that remains in it when its front is split off. -/
def Entry.back (e : Entry O) (start : ℕ) : Entry O :=
  { e with start := start, offset := e.offset + BitVec.ofNat 32 (start - e.start) }

/-- The part of an entry that remains in it when its back is split off. -/
def Entry.front (e : Entry O) (stop : ℕ) : Entry O := { e with stop := stop }

/-- A copy of an entry, in a new structure. -/
def Entry.withId (e : Entry O) (id : ℕ) : Entry O := { e with id := id }

/-- The state of an operation on a range: the list is cut in front of the range. -/
structure Cut (O : Type*) where
  found : Bool
  counts : Counts
  hint : Option ℕ
  before : List (Entry O)
  rest : List (Entry O)

/-- `vm_map_lookup_entry` and `vm_map_clip_start`, as every operation on a range begins.  The front
of a clipped entry is a new entry, so that pointers to the entry denote its back. -/
def VmMap.clipStart (map : VmMap O) (start : ℕ) : Cut O :=
  let (found, entry, map) := map.vmMapLookupEntry start
  if found then
    match cutAt map.entries (entry.getD 0) with
    | (before, e :: rest) =>
      if e.start < start then
        { found := found
          counts := { map.counts with
            nentries := map.counts.nentries + 1, nextId := map.counts.nextId + 1 }
          hint := map.hint
          before := before ++ [(e.front start).withId map.counts.nextId]
          rest := e.back start :: rest }
      else { found := found, counts := map.counts, hint := map.hint, before := before,
             rest := e :: rest }
    | (before, []) => { found := found, counts := map.counts, hint := map.hint, before := before,
                        rest := [] }
  else
    let cut := cutAfter map.entries entry
    { found := found, counts := map.counts, hint := map.hint, before := cut.1, rest := cut.2 }

/-- The loop over a range, that clips the last entry at the end of the range and changes every
entry.  The back of a clipped entry is a new entry; it starts at `stop`, where the loop ends. -/
def changeLoop (change : Entry O → Entry O) (stop : ℕ) :
    Counts → List (Entry O) → Counts × List (Entry O)
  | counts, [] => (counts, [])
  | counts, e :: rest =>
    if e.start < stop then
      if stop < e.stop then
        ({ counts with nentries := counts.nentries + 1, nextId := counts.nextId + 1 },
          change (e.front stop) :: (e.back stop).withId counts.nextId :: rest)
      else
        let result := changeLoop change stop counts rest
        (result.1, change e :: result.2)
    else (counts, e :: rest)

/-- The loop of `vm_map_delete`: `vm_map_clip_end` and `vm_map_entry_delete`. -/
def deleteLoop (stop : ℕ) : Counts → List (Entry O) → Counts × List (Entry O)
  | counts, [] => (counts, [])
  | counts, e :: rest =>
    if e.start < stop then
      if stop < e.stop then
        ({ counts with
            nentries := counts.nentries + 1 - 1
            size := counts.size - (stop - e.start)
            nextId := counts.nextId + 1 },
          (e.back stop).withId counts.nextId :: rest)
      else
        deleteLoop stop { counts with
          nentries := counts.nentries - 1, size := counts.size - (e.stop - e.start) } rest
    else (counts, e :: rest)

/-- `VM_MAP_RANGE_CHECK`. -/
def VmMap.rangeCheck (map : VmMap O) (start stop : ℕ) : ℕ × ℕ :=
  let start := if start < map.minOffset then map.minOffset else start
  let stop := if map.maxOffset < stop then map.maxOffset else stop
  (if stop < start then stop else start, stop)

/-! ## Operations on a range -/

/-- A map after an operation on a range has changed its list. -/
def VmMap.withList (map : VmMap O) (hint : Option ℕ) (before : List (Entry O))
    (result : Counts × List (Entry O)) : VmMap O :=
  { map with counts := result.1, hint := hint, entries := before ++ result.2 }

/-- `vm_map_delete`. -/
def VmMap.vmMapDelete (map : VmMap O) (start stop : ℕ) : KernReturn × VmMap O :=
  let cut := map.clipStart start
  -- `entry->vme_prev`, whether or not an entry was found
  let prev := lastId cut.before
  let clipped := { map with counts := cut.counts, entries := cut.before ++ cut.rest }
  let firstFree := if start ≤ clipped.startOf map.firstFree then prev else map.firstFree
  (.success, { map with firstFree := firstFree }.withList (if cut.found then prev else cut.hint)
    cut.before (deleteLoop stop cut.counts cut.rest))

/-- `vm_map_remove`. -/
def VmMap.vmMapRemove (map : VmMap O) (start stop : ℕ) : KernReturn × VmMap O :=
  map.vmMapDelete (map.rangeCheck start stop).1 (map.rangeCheck start stop).2

/-- The first pass of `vm_map_protect`. -/
def checkProtection (newProt : BitVec 32) (stop : ℕ) : List (Entry O) → KernReturn
  | [] => .success
  | e :: rest =>
    if e.start < stop then
      if e.isSubMap then .invalidArgument
      else if newProt &&& e.maxProtection != newProt then .protectionFailure
      else checkProtection newProt stop rest
    else .success

/-- What `vm_map_protect` does to an entry. -/
def Entry.protect (newProt : BitVec 32) (setMax : Bool) (e : Entry O) : Entry O :=
  if setMax then { e with maxProtection := newProt, protection := newProt &&& e.protection }
  else { e with protection := newProt }

/-- `vm_map_protect`. -/
def VmMap.vmMapProtect (map : VmMap O) (start stop : ℕ) (newProt : BitVec 32) (setMax : Bool) :
    KernReturn × VmMap O :=
  let (start, stop) := map.rangeCheck start stop
  let cut := map.clipStart start
  match checkProtection newProt stop cut.rest with
  | .success => (.success, map.withList cut.hint cut.before
      (changeLoop (Entry.protect newProt setMax) stop cut.counts cut.rest))
  | failure => (failure, map.withList cut.hint cut.before (cut.counts, cut.rest))

/-- `vm_map_inherit`. -/
def VmMap.vmMapInherit (map : VmMap O) (start stop : ℕ) (newInheritance : BitVec 32) :
    KernReturn × VmMap O :=
  if newInheritance = vmInheritNone ∨ newInheritance = vmInheritCopy ∨
      newInheritance = vmInheritShare then
    let (start, stop) := map.rangeCheck start stop
    let cut := map.clipStart start
    (.success, map.withList cut.hint cut.before
      (changeLoop (fun e => { e with inheritance := newInheritance }) stop cut.counts cut.rest))
  else (.invalidArgument, map)

/-- What `vm_map_reallocate` does to an entry of a map. -/
def Entry.reallocate (isMainMap : Bool) (e : Entry O) : Entry O :=
  let e := { e with
    isAMap := false, isSubMap := false, object := none, offset := 0
    copyOnWrite := false, needsCopy := false, wiredCount := 0 }
  if isMainMap then { e with protection := e.maxProtection &&& vmProtDefault } else e

/-- `vm_map_reallocate`. -/
def VmMap.vmMapReallocate (map : VmMap O) (start stop : ℕ) : KernReturn × VmMap O :=
  let (start, stop) := map.rangeCheck start stop
  let cut := map.clipStart start
  (.success, map.withList (if cut.found then lastId cut.before else cut.hint) cut.before
    (changeLoop (Entry.reallocate map.isMainMap) stop cut.counts cut.rest))

/-! ## Allocation -/

section Allocate

variable [DecidableEq O] (zalloc : ℕ → Entry O) (coalesce : O → Bool)

/-- `vm_object_coalesce`, with no second object. -/
def vmObjectCoalesce : Option O → Bool
  | none => true
  | some object => coalesce object

/-- The entries of a map, with a new entry linked in after those of `before`. -/
def VmMap.link (map : VmMap O) (before after : List (Entry O)) (e : Entry O) : VmMap O :=
  { map with
    entries := before ++ e :: after
    counts := { nentries := map.counts.nentries + 1
                size := map.counts.size + (e.stop - e.start)
                nextId := map.counts.nextId + 1 } }

/-- The entries of a map, where the last entry of `before` is extended to `stop`. -/
def VmMap.extend (map : VmMap O) (before after : List (Entry O)) (e : Entry O) (stop : ℕ) :
    VmMap O :=
  { map with
    entries := before.dropLast ++ e.front stop :: after
    counts := { map.counts with size := map.counts.size + (stop - e.stop) } }

/-- The entry that `vm_map_insert` creates.  The fields it does not fill are those of the memory. -/
def VmMap.insertEntry (map : VmMap O) (object : Option O) (offset : BitVec 32) (start stop : ℕ) :
    Entry O :=
  let e := { zalloc map.counts.nextId with
    id := map.counts.nextId, start := start, stop := stop, isAMap := false, isSubMap := false
    object := object, offset := offset, copyOnWrite := false, needsCopy := false }
  if map.isMainMap then
    { e with inheritance := vmInheritDefault, protection := vmProtDefault
             maxProtection := vmProtAll, wiredCount := 0 }
  else e

/-- The test of `vm_map_insert` for an entry that can be extended up to `start`. -/
def Entry.insertExtends (e : Entry O) (object : Option O) (start : ℕ) : Bool :=
  object.isNone && e.stop == start && !e.isAMap && !e.isSubMap &&
    e.inheritance == vmInheritDefault && e.protection == vmProtDefault &&
    e.maxProtection == vmProtAll && e.wiredCount == 0 && vmObjectCoalesce coalesce e.object

/-- `vm_map_insert` after its lookup, with the entry `prev` in front of the range. -/
def VmMap.insertAfter (map : VmMap O) (prev : Option ℕ) (object : Option O) (offset : BitVec 32)
    (start stop : ℕ) : KernReturn × VmMap O :=
  let (before, after) := cutAfter map.entries prev
  if after.head?.any fun next => next.start < stop then (.noSpace, map)
  else
    match before.getLast?.filter fun e => e.insertExtends coalesce object start with
    | some e => (.success, map.extend before after e stop)
    | none =>
      let new := map.insertEntry zalloc object offset start stop
      let firstFree :=
        if map.firstFree = prev ∧ start ≤ map.stopOf prev then some new.id else map.firstFree
      (.success, { map.link before after new with firstFree := firstFree })

/-- `vm_map_insert`. -/
def VmMap.vmMapInsert (map : VmMap O) (object : Option O) (offset : BitVec 32) (start stop : ℕ) :
    KernReturn × VmMap O :=
  if start < map.minOffset ∨ map.maxOffset < stop ∨ stop ≤ start then (.invalidAddress, map)
  else
    let (found, prev, map) := map.vmMapLookupEntry start
    if found then (.noSpace, map)
    else map.insertAfter zalloc coalesce prev object offset start stop

/-- `(start + mask) & ~mask`. -/
def alignUp (mask start : ℕ) : ℕ :=
  ((BitVec.ofNat 32 start + BitVec.ofNat 32 mask) &&& ~~~ BitVec.ofNat 32 mask).toNat

/-- The loop of `vm_map_find_entry` and `vm_map_find`: the entry before the first range that is
large enough, and the start of the range.  `align` is what is done to a candidate. -/
def firstFit (align : ℕ → ℕ) (max size : ℕ) :
    Option ℕ → ℕ → List (Entry O) → Option (Option ℕ × ℕ)
  | entry, start, rest =>
    if max < (align start + size) % 2 ^ 32 ∨ (align start + size) % 2 ^ 32 < align start then none
    else
      match rest with
      | [] => some (entry, align start)
      | next :: rest =>
        if (align start + size) % 2 ^ 32 ≤ next.start then some (entry, align start)
        else firstFit align max size (some next.id) next.stop rest

/-- The entry that `vm_map_find_entry` creates. -/
def VmMap.findEntryNew (map : VmMap O) (start stop : ℕ) : Entry O :=
  { zalloc map.counts.nextId with
    id := map.counts.nextId, start := start, stop := stop, isShared := false, isSubMap := false
    object := none, offset := 0, needsCopy := false, inheritance := vmInheritDefault
    protection := vmProtDefault, maxProtection := vmProtAll, wiredCount := 1, userWiredCount := 0
    inTransition := false, needsWakeup := false }

/-- The test of `vm_map_find_entry` for an entry that can be extended up to `start`. -/
def Entry.findEntryExtends (e : Entry O) (object : Option O) (start : ℕ) : Bool :=
  object.isSome && e.stop == start && !e.isShared && !e.isSubMap && e.object == object &&
    !e.needsCopy && e.inheritance == vmInheritDefault && e.protection == vmProtDefault &&
    e.maxProtection == vmProtAll && e.wiredCount == 1 && e.userWiredCount == 0

/-- Where the search for free space begins. -/
def VmMap.freeStart (map : VmMap O) : ℕ :=
  match map.firstFree with
  | none => map.minOffset
  | some id => map.stopOf (some id)

/-- `vm_map_find_entry`: the return code, the address, and the map. -/
def VmMap.vmMapFindEntry (map : VmMap O) (size mask : ℕ) (object : Option O) :
    KernReturn × ℕ × VmMap O :=
  match firstFit (alignUp mask) map.maxOffset size map.firstFree map.freeStart
      (cutAfter map.entries map.firstFree).2 with
  | none => (.noSpace, 0, map)
  | some (entry, start) =>
    let stop := (start + size) % 2 ^ 32
    let (before, after) := cutAfter map.entries entry
    match before.getLast?.filter fun e => e.findEntryExtends object start with
    | some e =>
      (.success, start,
        { map.extend before after e stop with firstFree := some e.id, hint := some e.id })
    | none =>
      let new := map.findEntryNew zalloc start stop
      (.success, start,
        { map.link before after new with firstFree := some new.id, hint := some new.id })

/-- The part of `vm_map_find` that looks for space: the address found, and the map with the new
hint. -/
def VmMap.findSpace (map : VmMap O) (start length : ℕ) : Option ℕ × VmMap O :=
  let start := if start < map.minOffset then map.minOffset else start
  if map.maxOffset < start then (none, map)
  else if start = map.minOffset then
    match firstFit id map.maxOffset length map.firstFree map.freeStart
        (cutAfter map.entries map.firstFree).2 with
    | none => (none, map)
    | some (entry, start) => (some start, { map with hint := entry })
  else
    let (found, entry, map) := map.vmMapLookupEntry start
    let start := if found then map.stopOf entry else start
    match firstFit id map.maxOffset length entry start (cutAfter map.entries entry).2 with
    | none => (none, map)
    | some (entry, start) => (some start, { map with hint := entry })

/-- `vm_map_find`: the return code, the address, and the map. -/
def VmMap.vmMapFind (map : VmMap O) (object : Option O) (offset : BitVec 32) (address length : ℕ)
    (findSpace : Bool) : KernReturn × ℕ × VmMap O :=
  if findSpace then
    match map.findSpace address length with
    | (none, map) => (.noSpace, address, map)
    | (some start, map) =>
      let result := map.vmMapInsert zalloc coalesce object offset start ((start + length) % 2 ^ 32)
      (result.1, start, result.2)
  else
    let result := map.vmMapInsert zalloc coalesce object offset address
      ((address + length) % 2 ^ 32)
    (result.1, address, result.2)

end Allocate

end Darwin.Vm.Map
