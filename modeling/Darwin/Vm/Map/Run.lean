import Darwin.Vm.Map.Allocate
import Darwin.Vm.Map.Range

/-!
# Sequences of operations on a fresh map

Every operation keeps the invariant of the map and does what it is specified to do to the function
from addresses to mappings.  The exception is `vm_map_find_entry` with an alignment: the addition of
the mask can wrap around the address space, and the range that is then mapped can lie anywhere.

## Main results

* `address_map_refines` - sequences of operations without such a search
* `alignment_wraps` - two calls of `vm_map_find_entry` that put the list out of order
-/

namespace Darwin.Vm.Map

open Darwin.Lib

variable {O : Type*}

/-! ## Operations -/

/-- The operations, with their arguments. -/
inductive Op (O : Type*) where
  | insert (object : Option O) (offset start stop : BitVec 32)
  | find (object : Option O) (offset address length : BitVec 32) (findSpace : Bool)
  | findEntry (size mask : BitVec 32) (object : Option O)
  | delete (start stop : BitVec 32)
  | remove (start stop : BitVec 32)
  | protect (start stop newProt : BitVec 32) (setMax : Bool)
  | inherit (start stop newInheritance : BitVec 32)
  | reallocate (start stop : BitVec 32)

/-- A size that may be asked for: `vm_map_find_entry` is not called with size 0. -/
def Op.Sized : Op O → Prop
  | .findEntry size _ _ => 0 < size.toNat
  | _ => True

/-- The search of `vm_map_find_entry` does not wrap around. -/
def Op.Aligned (map : VmMap O) : Op O → Prop
  | .findEntry size mask _ => map.AlignsWhole size.toNat mask.toNat
  | _ => True

section Step

variable [DecidableEq O] (zalloc : ℕ → Entry O) (coalesce : O → Bool)

/-- One operation: the return code, the address returned by those that look for one, and the map. -/
def VmMap.step (map : VmMap O) : Op O → KernReturn × ℕ × VmMap O
  | .insert object offset start stop =>
    let result := map.vmMapInsert zalloc coalesce object offset start.toNat stop.toNat
    (result.1, 0, result.2)
  | .find object offset address length findSpace =>
    map.vmMapFind zalloc coalesce object offset address.toNat length.toNat findSpace
  | .findEntry size mask object => map.vmMapFindEntry zalloc size.toNat mask.toNat object
  | .delete start stop =>
    let result := map.vmMapDelete start.toNat stop.toNat
    (result.1, 0, result.2)
  | .remove start stop =>
    let result := map.vmMapRemove start.toNat stop.toNat
    (result.1, 0, result.2)
  | .protect start stop newProt setMax =>
    let result := map.vmMapProtect start.toNat stop.toNat newProt setMax
    (result.1, 0, result.2)
  | .inherit start stop newInheritance =>
    let result := map.vmMapInherit start.toNat stop.toNat newInheritance
    (result.1, 0, result.2)
  | .reallocate start stop =>
    let result := map.vmMapReallocate start.toNat stop.toNat
    (result.1, 0, result.2)

end Step

/-! ## What the operations are for -/

/-- The addresses of a range are changed by `effect`, and no others. -/
def Changes (map map' : VmMap O) (start stop : ℕ) (effect : ℕ → Option (Mapping O)) : Prop :=
  ∀ a, map'.view a = if start ≤ a ∧ a < stop then effect a else map.view a

/-- Nothing has changed. -/
def Same (map map' : VmMap O) : Prop := ∀ a, map'.view a = map.view a

/-- What an operation does to the addresses, with the return code and the address it returns. -/
def Specified (coalesce : O → Bool) (map : VmMap O) (op : Op O)
    (result : KernReturn × ℕ × VmMap O) : Prop :=
  match op with
  | .insert object offset start stop =>
    (map.Free start.toNat stop.toNat → result.1 = .success ∧
      Mapped map result.2.2 object offset start.toNat stop.toNat (InsertExtends coalesce object)) ∧
    (¬ map.Free start.toNat stop.toNat → result.1 ≠ .success ∧ Same map result.2.2)
  | .find object offset address length findSpace =>
    (result.1 ≠ .success ∧ Same map result.2.2 ∧
      (findSpace = false → ¬ map.Free address.toNat ((address.toNat + length.toNat) % 2 ^ 32))) ∨
    ∃ start, result.1 = .success ∧ result.2.1 = start ∧
      (if findSpace then address.toNat ≤ start else address.toNat = start) ∧
      map.Free start (start + length.toNat) ∧
      Mapped map result.2.2 object offset start (start + length.toNat)
        (InsertExtends coalesce object)
  | .findEntry size _ object =>
    (result.1 = .noSpace ∧ result.2.2 = map) ∨
    ∃ start, result.1 = .success ∧ result.2.1 = start ∧ map.Free start (start + size.toNat) ∧
      Mapped map result.2.2 none 0 start (start + size.toNat) (FindEntryExtends object)
  | .delete start stop =>
    result.1 = .success ∧ Changes map result.2.2 start.toNat stop.toNat fun _ => none
  | .remove start stop =>
    let range := map.rangeCheck start.toNat stop.toNat
    result.1 = .success ∧ Changes map result.2.2 range.1 range.2 fun _ => none
  | .protect start stop newProt setMax =>
    let range := map.rangeCheck start.toNat stop.toNat
    (map.Allows newProt range.1 range.2 → result.1 = .success ∧
      Changes map result.2.2 range.1 range.2 fun a =>
        (map.view a).map (Mapping.protect newProt setMax)) ∧
    (¬ map.Allows newProt range.1 range.2 → result.1 = .protectionFailure ∧ Same map result.2.2)
  | .inherit start stop newInheritance =>
    let range := map.rangeCheck start.toNat stop.toNat
    (newInheritance.toNat ≤ 2 → result.1 = .success ∧
      Changes map result.2.2 range.1 range.2 fun a =>
        (map.view a).map fun mapping => { mapping with inheritance := newInheritance }) ∧
    (2 < newInheritance.toNat → result.1 = .invalidArgument ∧ Same map result.2.2)
  | .reallocate start stop =>
    let range := map.rangeCheck start.toNat stop.toNat
    result.1 = .success ∧
      Changes map result.2.2 range.1 range.2 fun a => (entryAt map.entries a).map fun e =>
        { object := none
          offset := BitVec.ofNat 32 (a - max e.start range.1)
          protection := e.maxProtection &&& vmProtDefault
          maxProtection := e.maxProtection
          inheritance := e.inheritance }

/-! ## Sequences of operations -/

section Reachable

variable [DecidableEq O]

/-- The maps that sequences of operations make of a fresh map, where every operation meets a
condition.  What the memory of a new entry holds, and which objects can be extended, is arbitrary
at every step. -/
inductive Reachable (meets : VmMap O → Op O → Prop) : VmMap O → Prop
  | create (min max : BitVec 32) : Reachable meets (vmMapCreate O min.toNat max.toNat)
  | step {map : VmMap O} (reachable : Reachable meets map) (zalloc : ℕ → Entry O)
      (coalesce : O → Bool) (op : Op O) (condition : meets map op) :
      Reachable meets (map.step zalloc coalesce op).2.2

omit [DecidableEq O] in
theorem vmMapCreate_inv (min max : ℕ) : (vmMapCreate O min max).Inv where
  list := ⟨trivial, List.nodup_nil, fun _ mem => (nomatch mem), rfl, rfl,
    fun _ mem => nomatch mem⟩
  hint := denotes_none _
  firstFree := denotes_none _
  main := rfl

theorem VmMap.Inv.step {map : VmMap O} (inv : map.Inv) (zalloc : ℕ → Entry O) (coalesce : O → Bool)
    (op : Op O) (sized : op.Sized) (aligned : op.Aligned map) :
    (map.step zalloc coalesce op).2.2.Inv ∧
      Specified coalesce map op (map.step zalloc coalesce op) := by
  cases op with
  | insert object offset start stop =>
    exact inv.insert zalloc coalesce object offset start.toNat stop.toNat
  | find object offset address length findSpace =>
    exact inv.find zalloc coalesce object offset address.toNat length.isLt findSpace
  | findEntry size mask object =>
    obtain ⟨kept, found⟩ := inv.findEntry zalloc sized size.isLt aligned object
    refine ⟨kept, ?_⟩
    rcases found with none | found
    · exact .inl ⟨congrArg (·.1) none, congrArg (·.2.2) none⟩
    · exact .inr found
  | delete start stop => exact inv.delete start.toNat stop.toNat
  | remove start stop => exact inv.delete _ _
  | protect start stop newProt setMax => exact inv.protect start.toNat stop.toNat newProt setMax
  | inherit start stop newInheritance =>
    obtain ⟨kept, known, unknown⟩ := inv.inherit start.toNat stop.toNat newInheritance
    refine ⟨kept, known, fun large => ?_⟩
    exact ⟨congrArg (·.1) (unknown large), fun a => congrArg (·.2.view a) (unknown large)⟩
  | reallocate start stop => exact inv.reallocate start.toNat stop.toNat

theorem Reachable.inv {map : VmMap O}
    (reachable : Reachable (fun map op => op.Sized ∧ op.Aligned map) map) : map.Inv := by
  induction reachable with
  | create min max => exact vmMapCreate_inv _ _
  | step reachable zalloc coalesce op condition ih =>
    exact (ih.step zalloc coalesce op condition.1 condition.2).1

/-- For every sequence of operations on a fresh map in which no search of `vm_map_find_entry` wraps
around: the entries are sorted by address, with disjoint ranges that are not empty inside of the
bounds of the map; `nentries` and `size` count them; `hint` and `first_free` denote the header or an
entry of the list; `vm_map_lookup_entry` answers correctly for every address and every hint; and
every further operation does to the addresses what it is specified to do. -/
theorem address_map_refines {map : VmMap O}
    (reachable : Reachable (fun map op => op.Sized ∧ op.Aligned map) map) :
    Segments Entry.start Entry.stop map.minOffset map.entries map.maxOffset ∧
    map.counts.nentries = map.entries.length ∧ map.counts.size = rangeSum map.entries ∧
    Denotes map.entries map.hint ∧ Denotes map.entries map.firstFree ∧
    (∀ hint a, Denotes map.entries hint →
      Answers map.entries a (VmMap.vmMapLookupEntry { map with hint := hint } a).1
        (VmMap.vmMapLookupEntry { map with hint := hint } a).2.1) ∧
    ∀ zalloc coalesce op, op.Sized → op.Aligned map →
      Specified coalesce map op (map.step zalloc coalesce op) := by
  have inv := reachable.inv
  refine ⟨inv.list.segments, inv.list.nentries, inv.list.size, inv.hint, inv.firstFree, ?_, ?_⟩
  · intro hint a denotes
    exact ((inv.withHint denotes).lookup a).1
  · intro zalloc coalesce op sized aligned
    exact (inv.step zalloc coalesce op sized aligned).2

end Reachable

/-! ## Examples -/

/-- The memory that new entries are made in. -/
def sampleEntry : Entry Unit where
  id := 0
  start := 0
  stop := 0
  object := none
  offset := 0
  isAMap := false
  isShared := false
  isSubMap := false
  copyOnWrite := false
  inTransition := false
  needsWakeup := false
  needsCopy := false
  protection := 0
  maxProtection := 0
  inheritance := 0
  wiredCount := 0
  userWiredCount := 0

/-- Some operations in a row. -/
def sampleRun (map : VmMap Unit) (ops : List (Op Unit)) : VmMap Unit :=
  ops.foldl (fun map op => (map.step (fun _ => sampleEntry) (fun _ => false) op).2.2) map

/-- An entry is made of two pages at an aligned address; its first page is protected, and its second
one is removed. -/
theorem address_map_refines_sample :
    let map := sampleRun (vmMapCreate Unit 0x1000 0xfffff000)
      [.findEntry 0x2000 0x3fff none, .protect 0x4000 0x5000 1 false, .remove 0x5000 0x6000]
    map.entries.map (fun e => (e.start, e.stop, e.protection)) = [(0x4000, 0x5000, 1)] ∧
      map.counts.nentries = 1 ∧ map.counts.size = 0x1000 ∧
      Answers map.entries 0x4800 (map.vmMapLookupEntry 0x4800).1
        (map.vmMapLookupEntry 0x4800).2.1 := by
  intro map
  have reachable : Reachable (fun map op => op.Sized ∧ op.Aligned map) map := by
    refine ((((Reachable.create 0x1000 0xfffff000).step (fun _ => sampleEntry) (fun _ => false)
      (.findEntry 0x2000 0x3fff none) ⟨?_, ?_⟩).step (fun _ => sampleEntry) (fun _ => false)
      (.protect 0x4000 0x5000 1 false) ⟨trivial, trivial⟩).step (fun _ => sampleEntry)
      (fun _ => false) (.remove 0x5000 0x6000) ⟨trivial, trivial⟩)
    · show 0 < 0x2000
      decide
    · show 0x1000 + 0x3fff < 2 ^ 32
      decide
  have refines := address_map_refines reachable
  exact ⟨by decide +kernel, by decide +kernel, by decide +kernel,
    refines.2.2.2.2.2.1 map.hint 0x4800 refines.2.2.2.1⟩

/-- A page is mapped up to the top of the map; the search for an aligned page behind it wraps around
and maps address 0, below the map and out of order. -/
theorem alignment_wraps : ∃ map : VmMap Unit, Reachable (fun _ op => op.Sized) map ∧
    map.entries.map (fun e => (e.start, e.stop)) = [(0x1000, 0xffffe000), (0, 0x1000)] ∧
    map.minOffset = 0x1000 ∧
    ¬ Segments Entry.start Entry.stop map.minOffset map.entries map.maxOffset := by
  have list : (sampleRun (vmMapCreate Unit 0x1000 0xfffff000)
      [.findEntry 0xffffd000 0 none, .findEntry 0x1000 0xffff none]).entries.map
        (fun e => (e.start, e.stop)) = [(0x1000, 0xffffe000), (0, 0x1000)] := by
    decide +kernel
  refine ⟨_, ?_, list, by decide +kernel, fun segments => ?_⟩
  · refine (((Reachable.create 0x1000 0xfffff000).step (fun _ => sampleEntry) (fun _ => false)
      (.findEntry 0xffffd000 0 none) ?_).step (fun _ => sampleEntry) (fun _ => false)
      (.findEntry 0x1000 0xffff none) ?_)
    · show 0 < 0xffffd000
      decide
    · show 0 < 0x1000
      decide
  · obtain ⟨first, rest, eq, here, there⟩ := List.map_eq_cons_iff.mp list
    obtain ⟨second, rest', rfl, here', -⟩ := List.map_eq_cons_iff.mp there
    rw [eq] at segments
    have order : first.stop ≤ second.start := segments.2.2.2.1
    have stops : first.stop = 0xffffe000 := congrArg Prod.snd here
    have starts : second.start = 0 := congrArg Prod.fst here'
    omega

end Darwin.Vm.Map
