import Darwin.Kern.Zalloc.Zone

/-!
# The zone allocator as a machine

The calls of the allocator on all free spaces and zones: `zget_space`, `zalloc`, `zfree`,
`zone_collect`, and `zone_free_space_reclaim` with the return of the pages to the system.  The
machine keeps account of the memory that was obtained from the system, of what was returned, and of
the ranges that are handed out, with the zone an element is of.  The owner of a range may write to
it.
-/

namespace Darwin.Kern.Zalloc

open Darwin.Lib

section Model

/-- What is fixed: the page size, the limits of the zone map, and the numbers of free spaces and
zones.  `turns` bounds each loop. -/
structure Params where
  page : ℕ
  zoneMin : ℕ
  zoneMax : ℕ
  turns : ℕ
  spaceCount : ℕ
  numZones : ℕ
  zoneIgnoreOverflow : Bool

/-- The state of the allocator, with the account of its memory. -/
structure State where
  mem : Memory
  zdata : ℕ
  zdataSize : ℕ
  spaces : ℕ → FreeSpace
  zones : ℕ → Zone
  out : List (Option ℕ × Range)
  obtained : List Range
  returned : List Range

/-- Requests are rounded up to the minimum allocation unit, in 32 bits. -/
def roundRequest (size : ℕ) : ℕ :=
  if size > zoneMinAlloc then (size + (zoneMinAlloc - 1)) % 4294967296 / zoneMinAlloc * zoneMinAlloc
  else zoneMinAlloc

/-- The bytes that a request of this size is entitled to. -/
def grantSize (size : ℕ) : ℕ :=
  if size > zoneMinAlloc then (size + (zoneMinAlloc - 1)) / zoneMinAlloc * zoneMinAlloc
  else zoneMinAlloc

def State.setSpace (s : State) (f : ℕ) (mem : Memory) (space : FreeSpace) : State :=
  { s with mem := mem, spaces := Function.update s.spaces f space }

/-- `zone_free_space_add` to the free space `f`, with a region that was obtained for it. -/
def State.addRegion (p : Params) (s : State) (f size newSpace spaceToAdd : ℕ) :
    Option (ℕ × State) :=
  match zoneFreeSpaceAdd p.turns (s.spaces f) s.mem size newSpace spaceToAdd with
  | none => none
  | some (result, mem, space) =>
    some (result, { s.setSpace f mem space with obtained := ⟨newSpace, spaceToAdd⟩ :: s.obtained })

/-- `zget_space`; `newSpace` is what `kmem_alloc_zone` supplies if it is called, or 0.  The rounded
size comes as an argument.  No other call runs while memory is allocated. -/
def State.zgetRounded (p : Params) (s : State) (f size newSpace : ℕ) : Option (ℕ × State) :=
  match zoneFreeSpaceLookup p.turns (s.spaces f) s.mem size with
  | none => none
  | some (cur, space) =>
    if cur ≠ 0 then
      let (mem, space) := trimEntry space s.mem cur size
      some (cur, s.setSpace f mem space)
    else
      -- Add at least one page to allocation area.
      let spaceToAdd := roundPage p.page size
      if s.zdataSize ≥ spaceToAdd then
        { s with zdataSize := s.zdataSize - spaceToAdd }.addRegion p f size
          (s.zdata + (s.zdataSize - spaceToAdd)) spaceToAdd
      else if newSpace = 0 then some (0, s)
      else s.addRegion p f size newSpace spaceToAdd

/-- `zget_space`. -/
def State.zgetSpace (p : Params) (s : State) (f size newSpace : ℕ) : Option (ℕ × State) :=
  s.zgetRounded p f (roundRequest size) newSpace

def State.setZone (s : State) (z : ℕ) (mem : Memory) (zone : Zone) : State :=
  { s with mem := mem, zones := Function.update s.zones z zone }

/-- A range is handed out, unless there is none. -/
def State.handOut (s : State) (owner : Option ℕ) (result size : ℕ) : State :=
  if result = 0 then s else { s with out := (owner, ⟨result, size⟩) :: s.out }

/-- One more element would exceed the limit of the zone. -/
def Zone.full (zone : Zone) : Bool := zone.curSize + zone.elemSize > zone.maxSize

/-- The zone is grown if it is full and may be. -/
def Zone.grow (zone : Zone) : Zone :=
  if zone.full ∧ zone.expandable then { zone with maxSize := zone.maxSize + zone.maxSize >>> 1 }
  else zone

/-- A new element is counted, if there is one. -/
def Zone.countElement (zone : Zone) (addr : ℕ) : Zone :=
  if addr = 0 then zone
  else { zone with count := zone.count + 1, curSize := zone.curSize + zone.elemSize }

/-- The part of `zalloc` that gets a new element. -/
def State.zallocNew (p : Params) (s : State) (z newSpace : ℕ) : Option State :=
  let zone := s.zones z
  if zone.full ∧ zone.exhaustible then some s
  else if zone.full ∧ ¬ zone.expandable ∧ ¬ p.zoneIgnoreOverflow then some s
  else
    let zone := zone.grow
    match s.zgetSpace p zone.freeSpace zone.elemSize newSpace with
    | none => none
    | some (addr, s) =>
      some ((s.setZone z s.mem (zone.countElement addr)).handOut (some z) addr
        (grantSize zone.elemSize))

/-- `zalloc`. -/
def State.zalloc (p : Params) (s : State) (z newSpace : ℕ) : Option State :=
  let (addr, mem, zone) := removeFromZone (s.zones z) s.mem
  if addr ≠ 0 then
    some ((s.setZone z mem zone).handOut (some z) addr (grantSize zone.elemSize))
  else s.zallocNew p z newSpace

/-- `zfree`. -/
def State.zfree (p : Params) (s : State) (z element : ℕ) : Option State :=
  match addToZone p.turns (s.zones z) s.mem element with
  | none => none
  | some (mem, zone) =>
    some { s.setZone z mem zone with
      out := s.out.erase (some z, ⟨element, grantSize zone.elemSize⟩) }

/-- `zone_collect`.  Zones of the default space are not collectable. -/
def State.zoneCollect (p : Params) (s : State) (z : ℕ) : Option State :=
  let f := (s.zones z).freeSpace
  if f = 0 then some s
  else
    match zoneCollectLoop p.turns p.turns (s.spaces f) s.mem (s.spaces f).entries (s.zones z) with
    | none => none
    | some (mem, space, zone) => some ((s.setSpace f mem space).setZone z mem zone)

/-- The loop of `zone_free_space_reclaim` over `count` free spaces from `f` on; their pages go back
to the system. -/
def State.reclaimSpaces (p : Params) : (count f : ℕ) → State → Option State
  | 0, _, s => some s
  | count + 1, f, s =>
    match reclaimEntries p.page p.zoneMin p.zoneMax p.turns p.turns (s.spaces f) s.mem
        (s.spaces f).entries [] with
    | none => none
    | some (mem, space, pages) =>
      State.reclaimSpaces p count (f + 1)
        { s.setSpace f mem space with returned := pages ++ s.returned }

/-- The calls of the allocator, and the writes of the owners of memory. -/
inductive Action where
  | zgetSpace (f size newSpace : ℕ)
  | zalloc (z newSpace : ℕ)
  | zfree (z element : ℕ)
  | zoneCollect (z : ℕ)
  | reclaim
  | write (address value : ℕ)

def State.next (p : Params) (s : State) : Action → Option State
  | .zgetSpace f size newSpace =>
    match s.zgetSpace p f size newSpace with
    | none => none
    | some (result, s) => some (s.handOut none result (grantSize size))
  | .zalloc z newSpace => s.zalloc p z newSpace
  | .zfree z element => s.zfree p z element
  | .zoneCollect z => s.zoneCollect p z
  | .reclaim => s.reclaimSpaces p (p.spaceCount - 1) 1
  | .write address value =>
    if 0 < cover (s.out.map Prod.snd) address then some { s with mem := s.mem.set address value }
    else none

end Model

end Darwin.Kern.Zalloc
