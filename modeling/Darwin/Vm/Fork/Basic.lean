import Darwin.Vm.Map.Protect
import Darwin.Vm.Object.Copy

/-!
# `vm_map_fork`

The child gets, for every entry of the parent, nothing, the sharing map behind the entry, or a copy
of it, as the inheritance of the entry says.  Where there is no sharing map yet, the parent's entry
is turned into an entry of one.

An entry maps its range to a memory object or, if it is marked so, to a sharing map; both are named
by their addresses.  The entries of a sharing map have memory objects.

## Main definitions

* `vmMapFork`
* `VmMap.Holds` - the contents that are seen at an address
* `Store` - a store to an address, with the fault behind it
-/

namespace Darwin.Vm.Map

open Darwin.Lib Darwin.Vm.Object

/-! ## Data -/

/-- The memory objects and the sharing maps; `nextMap` is the address of the next sharing map. -/
structure World (P D : Type*) where
  heap : Heap P D
  shareMap : ℕ → VmMap ℕ
  nextMap : ℕ

/-- `VM_PROT_EXECUTE`. -/
def vmProtExecute : BitVec 32 := 4

variable {P D : Type*}

/-! ## `vm_map_copy_entry` -/

/-- The loop of `vm_fault_copy_entry` over so many pages: the pages of the new object. -/
def copyPages (page : ℕ) (memq : List (ℕ × D)) (srcOffset : ℕ) :
    (count dstOffset : ℕ) → Option (List (ℕ × D))
  | 0, _ => some []
  | count + 1, dstOffset =>
    -- the panic "page missing"
    match vmPageLookup memq ((dstOffset + srcOffset) % 2 ^ 32) with
    | none => none
    | some p => (copyPages page memq srcOffset count (dstOffset + page)).map ((dstOffset, p) :: ·)

/-- The result of copying an entry: the heap, the source entry and the destination entry. -/
structure EntryCopy (P D : Type*) where
  heap : Heap P D
  src : Entry ℕ
  dst : Entry ℕ

/-- `vm_fault_copy_entry`. -/
def vmFaultCopyEntry (page : ℕ) (heap : Heap P D) (src dst : Entry ℕ) : Option (EntryCopy P D) :=
  src.object.bind fun object =>
    (copyPages page (heap.object object).memq src.offset.toNat
      ((dst.stop - dst.start + page - 1) / page) 0).map fun memq =>
        { heap := heap.add { vmObjectAllocate P D (dst.stop - dst.start) with memq := memq }
          src := src
          dst := { dst with object := some heap.next, offset := 0 } }

/-- `vm_map_copy_entry`, to a destination that has no object and is not wired. -/
def vmMapCopyEntry (page : ℕ) (heap : Heap P D) (src dst : Entry ℕ) : Option (EntryCopy P D) :=
  if src.isSubMap || dst.isSubMap then some ⟨heap, src, dst⟩
  else if src.wiredCount = 0 then
    let copy := vmObjectCopy heap src.object src.offset
    some
      { heap := copy.1
        src := { src with needsCopy := src.needsCopy || copy.2.2.2, copyOnWrite := true }
        dst := { dst with
          object := copy.2.1
          offset := copy.2.2.1
          needsCopy := true
          copyOnWrite := true
          protection :=
            if src.protection &&& vmProtExecute ≠ 0 then
              dst.protection ||| (vmProtExecute &&& dst.maxProtection)
            else dst.protection } }
  else vmFaultCopyEntry page heap src dst

/-! ## `vm_map_copy` out of a sharing map -/

/-- An entry of a map that a loop is at, with the entries behind it. -/
structure Cursor where
  counts : Counts
  entry : Entry ℕ
  rest : List (Entry ℕ)

/-- `vm_map_clip_end`. -/
def Cursor.clipEnd (stop : ℕ) (cursor : Cursor) : Cursor :=
  if stop < cursor.entry.stop then
    { counts := { cursor.counts with
        nentries := cursor.counts.nentries + 1, nextId := cursor.counts.nextId + 1 }
      entry := cursor.entry.front stop
      rest := (cursor.entry.back stop).withId cursor.counts.nextId :: cursor.rest }
  else cursor

/-- The result of the loop: the heap, and the counters and entries of both maps. -/
structure LoopCopy (P D : Type*) where
  heap : Heap P D
  src : Counts × List (Entry ℕ)
  dst : Counts × List (Entry ℕ)

/-- The loop of `vm_map_copy`, in so many turns, for entries that are not maps themselves; `none` if
it runs out of entries. -/
def copyLoop (page srcStop dstStop : ℕ) : (fuel srcStart : ℕ) → Heap P D →
    Counts × List (Entry ℕ) → Counts × List (Entry ℕ) → Option (LoopCopy P D)
  | 0, _, _, _, _ => none
  | fuel + 1, srcStart, heap, src, dst =>
    if srcStart < srcStop then
      match src.2, dst.2 with
      | s :: ss, d :: ds =>
        let s := (Cursor.mk src.1 s ss).clipEnd srcStop
        let d := (Cursor.mk dst.1 d ds).clipEnd dstStop
        let s := s.clipEnd (s.entry.start + (d.entry.stop - d.entry.start))
        let d := d.clipEnd (d.entry.start + (s.entry.stop - s.entry.start))
        if s.entry.isAMap || d.entry.isAMap then none
        else
          (vmMapCopyEntry page heap s.entry d.entry).bind fun copy =>
            (copyLoop page srcStop dstStop fuel copy.src.stop copy.heap (s.counts, s.rest)
              (d.counts, d.rest)).map fun loop =>
                { heap := loop.heap
                  src := (loop.src.1, copy.src :: loop.src.2)
                  dst := (loop.dst.1, copy.dst :: loop.dst.2) }
      | _, _ => none
    else some ⟨heap, src, dst⟩

/-- `vm_map_copy` from a sharing map to the child; it does not check protections, as the source is
not a main map. -/
def World.vmMapCopy (page : ℕ) (w : World P D) (dst : VmMap ℕ) (share dstAddr len srcAddr : ℕ) :
    Option (World P D × VmMap ℕ) :=
  -- the result `KERN_NO_SPACE` is printed
  if 2 ^ 32 ≤ dstAddr + len ∨ 2 ^ 32 ≤ srcAddr + len then some (w, dst)
  else
    let srcCut := (w.shareMap share).clipStart srcAddr
    let dstCut := dst.clipStart dstAddr
    -- "the lookup cannot fail"
    if !srcCut.found || !dstCut.found then none
    else
      (copyLoop page (srcAddr + len) (dstAddr + len) (srcCut.rest.length + dstCut.rest.length + 1)
        srcAddr w.heap (srcCut.counts, srcCut.rest) (dstCut.counts, dstCut.rest)).map fun loop =>
          ({ w with
              heap := loop.heap
              shareMap := Function.update w.shareMap share
                ((w.shareMap share).withList srcCut.hint srcCut.before loop.src) },
            dst.withList dstCut.hint dstCut.before loop.dst)

/-! ## `vm_map_fork` -/

/-- `vm_map_entry_create` and `vm_map_entry_link`, at the end of a map. -/
def VmMap.linkLast (map : VmMap ℕ) (e : Entry ℕ) : VmMap ℕ :=
  { map with
    entries := map.entries ++ [e.withId map.counts.nextId]
    counts := { map.counts with
      nentries := map.counts.nentries + 1, nextId := map.counts.nextId + 1 } }

/-- The last entry of a map is changed. -/
def VmMap.changeLast (map : VmMap ℕ) (e : Entry ℕ) : VmMap ℕ :=
  { map with entries := map.entries.dropLast ++ [e] }

/-- A sharing map is made for an entry of the parent, that is then fixed up to refer to it. -/
def World.share (w : World P D) (e : Entry ℕ) : World P D × Entry ℕ :=
  let newShareMap := { vmMapCreate ℕ e.start e.stop with isMainMap := false }
  ({ w with
      shareMap := Function.update w.shareMap w.nextMap (newShareMap.linkLast e)
      nextMap := w.nextMap + 1 },
    { e with isAMap := true, object := some w.nextMap, offset := BitVec.ofNat 32 e.start })

/-- The clone that a copy of an entry starts with. -/
def Entry.clone (e : Entry ℕ) : Entry ℕ :=
  { e with wiredCount := 0, object := none, isAMap := false }

/-- The state of a fork: the world, the child and the entries of the parent so far. -/
structure Forking (P D : Type*) where
  world : World P D
  child : VmMap ℕ
  parent : List (Entry ℕ)

/-- What is done for an entry of the parent. -/
def forkEntry (page : ℕ) (w : World P D) (child : VmMap ℕ) (e : Entry ℕ) :
    Option (World P D × VmMap ℕ × Entry ℕ) :=
  -- the panic "encountered a submap"
  if e.isSubMap then none
  else if e.inheritance = vmInheritShare then
    let shared := if e.isAMap then (w, e) else w.share e
    some (shared.1, child.linkLast shared.2, shared.2)
  else if e.inheritance = vmInheritCopy then
    let linked := child.linkLast e.clone
    if e.isAMap then
      (w.vmMapCopy page linked (e.object.getD 0) e.start (e.stop - e.start) e.offset.toNat).map
        fun result => (result.1, result.2, e)
    else
      (vmMapCopyEntry page w.heap e (e.clone.withId child.counts.nextId)).map fun copy =>
        ({ w with heap := copy.heap }, linked.changeLast copy.dst, copy.src)
  else some (w, child, e)

/-- The loop of `vm_map_fork`. -/
def forkLoop (page : ℕ) : World P D → VmMap ℕ → List (Entry ℕ) → Option (Forking P D)
  | w, child, [] => some ⟨w, child, []⟩
  | w, child, e :: rest =>
    (forkEntry page w child e).bind fun step =>
      (forkLoop page step.1 step.2.1 rest).map fun loop =>
        { loop with parent := step.2.2 :: loop.parent }

/-- The result of a fork: the world, the child and the parent. -/
structure Forked (P D : Type*) where
  world : World P D
  child : VmMap ℕ
  parent : VmMap ℕ

/-- `vm_map_fork`; `none` stands for its panics. -/
def vmMapFork (page : ℕ) (w : World P D) (old : VmMap ℕ) : Option (Forked P D) :=
  (forkLoop page w (vmMapCreate ℕ old.minOffset old.maxOffset) old.entries).map fun loop =>
    { world := loop.world
      child := { loop.child with counts := { loop.child.counts with size := old.counts.size } }
      parent := { old with entries := loop.parent } }

/-! ## Contents and stores -/

/-- The offset in its object that an entry maps an address to. -/
def Entry.pageOffset (e : Entry ℕ) (address : ℕ) : ℕ :=
  (e.offset + BitVec.ofNat 32 (address - e.start)).toNat

/-- The address in the sharing map that an entry maps an address to. -/
def Entry.shareOffset (e : Entry ℕ) (address : ℕ) : ℕ :=
  (e.offset.toNat + (address - e.start)) % 2 ^ 32

/-- The entry with the memory object behind an address of an entry, and the address in its map. -/
def Entry.locate (w : World P D) (e : Entry ℕ) (address : ℕ) : Option (Entry ℕ × ℕ) :=
  if e.isAMap then
    (entryAt (w.shareMap (e.object.getD 0)).entries (e.shareOffset address)).map
      fun s => (s, e.shareOffset address)
  else some (e, address)

/-- What is seen at an address of a map. -/
def VmMap.Holds (pager : P → ℕ → Option D) (zero : D) (w : World P D) (map : VmMap ℕ)
    (address : ℕ) (d : D) : Prop :=
  ∃ e s offset, entryAt map.entries address = some e ∧ e.locate w address = some (s, offset) ∧
    w.heap.Holds pager zero s.object (s.pageOffset offset) d

/-- `vm_map_lookup` for a write: a copy-on-write entry is given a shadow of its object, and an entry
without an object a new one. -/
def lookupWrite (heap : Heap P D) (e : Entry ℕ) : Heap P D × Entry ℕ :=
  let shadowed :=
    if e.needsCopy then
      (heap.add { vmObjectAllocate P D (e.stop - e.start) with
        shadow := e.object, shadowOffset := e.offset.toNat },
        { e with object := some heap.next, offset := 0, needsCopy := false })
    else (heap, e)
  if shadowed.2.object.isNone then
    (shadowed.1.add (vmObjectAllocate P D (e.stop - e.start)),
      { shadowed.2 with object := some shadowed.1.next, offset := 0 })
  else shadowed

/-- The entry and the page after a store. -/
def storeEntry (pager : P → ℕ → Option D) (heap : Heap P D) (e : Entry ℕ) (address : ℕ)
    (old d : D) : Heap P D × Entry ℕ :=
  let found := lookupWrite heap e
  (found.1.writePage (hasPage pager) (found.2.object.getD 0) (found.2.pageOffset address) old d,
    found.2)

/-- An entry of a map is replaced. -/
def VmMap.replace (map : VmMap ℕ) (e : Entry ℕ) : VmMap ℕ :=
  { map with entries := map.entries.map fun d => if d.id = e.id then e else d }

/-- A store to an address of a map, at the entry or at the one in the sharing map, that finds the
page `old` there.  (A store that the protection does not allow is not made, and the collapse of the
object that is behind a copied page is left out.) -/
inductive Store (pager : P → ℕ → Option D) (zero : D) (w : World P D) (map : VmMap ℕ)
    (address : ℕ) (d : D) : World P D → VmMap ℕ → Prop
  | plain {e : Entry ℕ} {old : D} (at_ : entryAt map.entries address = some e)
      (plain : e.isAMap = false)
      (holds : w.heap.Holds pager zero e.object (e.pageOffset address) old) :
      Store pager zero w map address d
        { w with heap := (storeEntry pager w.heap e address old d).1 }
        (map.replace (storeEntry pager w.heap e address old d).2)
  | shared {e s : Entry ℕ} {m : ℕ} {old : D} (at_ : entryAt map.entries address = some e)
      (isMap : e.isAMap = true) (object : e.object = some m)
      (share : entryAt (w.shareMap m).entries (e.shareOffset address) = some s)
      (holds : w.heap.Holds pager zero s.object (s.pageOffset (e.shareOffset address)) old) :
      Store pager zero w map address d
        { w with
          heap := (storeEntry pager w.heap s (e.shareOffset address) old d).1
          shareMap := Function.update w.shareMap m ((w.shareMap m).replace
            (storeEntry pager w.heap s (e.shareOffset address) old d).2) }
        map

end Darwin.Vm.Map
