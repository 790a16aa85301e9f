import Mathlib.Algebra.Order.Ring.Int
import Mathlib.Data.List.Basic

/-!
# Typed bodies of old messages

A model of the loops over the typed items of an old message: `ipc_kmsg_copyin_compat`, which checks
and rewrites them, and `ipc_kmsg_clean_body_compat` and `ipc_kmsg_copyout_compat`, which walk over
the rewritten body again.  A body is a memory of 32-bit words, numbered from its beginning; type
descriptors, inline data and pointers all begin at words.  A `natural_t` is as large as a
`mach_msg_type_t`, so the source never aligns anything further.

## Main definitions

* `readType`: the fields of a type descriptor, short or long
* `copyinLoop`: the loop of `ipc_kmsg_copyin_compat`
* `cleanLoop`, `copyoutLoop`: the loops of the two others
-/

namespace Darwin.Ipc.Compat

open Function (update)

/-- The words of a body and of what comes after it. -/
abbrev Memory := ℕ → ℕ

/-! ## Type descriptors -/

/-- The fields of a type descriptor, with the number of the word after it. -/
structure TypeDescriptor where
  isInline : Bool
  longform : Bool
  dealloc : Bool
  name : ℕ
  size : ℕ
  number : ℕ
  data : ℕ
  deriving DecidableEq, Repr

/-- The bit fields of a `mach_msg_type_t`, or with `msgt_longform` those of a
`mach_msg_type_long_t`, at the word `p`. -/
def readType (mem : Memory) (p : ℕ) : TypeDescriptor :=
  let word := mem p
  let isInline : Bool := word / 2 ^ 28 % 2 = 1
  let dealloc : Bool := word / 2 ^ 30 % 2 = 1
  if word / 2 ^ 29 % 2 = 1 then
    ⟨isInline, true, dealloc, mem (p + 1) % 2 ^ 16, mem (p + 1) / 2 ^ 16 % 2 ^ 16,
      mem (p + 2) % 2 ^ 32, p + 3⟩
  else ⟨isInline, false, dealloc, word % 2 ^ 8, word / 2 ^ 8 % 2 ^ 8, word / 2 ^ 16 % 2 ^ 12, p + 1⟩

namespace TypeDescriptor

variable (t : TypeDescriptor)

/-- The length of the data in bytes: `((number * size) + 7) >> 3`. -/
def length : ℕ := (t.number * t.size + 7) % 2 ^ 32 / 8

/-- `(length + 3) &~ 3`. -/
def amount : ℕ := (t.length + 3) / 4 * 4

/-- The word after the item. -/
def next : ℕ := if t.isInline then t.data + t.amount / 4 else t.data + 1

/-- `MSG_TYPE_PORT_ANY`. -/
def oldPort : Bool := t.name = 6 ∨ t.name = 5

/-- `MACH_MSG_TYPE_PORT_ANY`. -/
def machPort : Bool := 16 ≤ t.name ∧ t.name ≤ 21

end TypeDescriptor

/-- `ipc_object_copyin_type`, on the old port types. -/
def copyinType (name : ℕ) : ℕ := if name = 6 then 17 else 16

/-- `ipc_object_copyout_type_compat`; other types stop the kernel. -/
def copyoutTypeCompat (name : ℕ) : Option ℕ :=
  if name = 17 ∨ name = 18 then some 6 else if name = 16 then some 5 else none

/-- Clearing `msgt_unused`, and in a long descriptor the fields of its header. -/
def clearUnused (mem : Memory) (p : ℕ) (longform : Bool) : Memory :=
  update mem p
    (if longform then mem p % 2 ^ 31 / 2 ^ 28 * 2 ^ 28 else mem p % 2 ^ 31)

/-- Setting `msgt_name` or `msgtl_name`. -/
def setName (mem : Memory) (p : ℕ) (longform : Bool) (name : ℕ) : Memory :=
  if longform then update mem (p + 1) (mem (p + 1) / 2 ^ 16 * 2 ^ 16 + name)
  else update mem p (mem p / 2 ^ 8 * 2 ^ 8 + name)

/-- `MACH_PORT_VALID` and `IO_VALID`. -/
def valid (word : ℕ) : Bool := word ≠ 0 ∧ word ≠ 0xffffffff

/-! ## The copyin -/

/-- An access of the copyin: to bytes of the body from a word on, or to `objects[i]` in data of a
length. -/
inductive Access where
  | read (word bytes : ℕ)
  | object (i length : ℕ)
  deriving DecidableEq, Repr

/-- An item that a loop visits: where its descriptor and its data are, and how many ports it has. -/
structure Visit where
  descriptor : ℕ
  data : ℕ
  ports : ℕ
  deriving DecidableEq, Repr

inductive Failure where
  | msgTooSmall
  | invalidType
  | invalidMemory
  | invalidRight
  deriving DecidableEq, Repr

/-- The outcomes of the calls of the copyin, by the word of the data of an item and the place among
its ports.  `array` is the memory from the address of a port array on. -/
structure Outcomes where
  kalloc : ℕ → Option ℕ
  copyinmap : ℕ → Bool
  vmDeallocate : ℕ → Bool
  vmMove : ℕ → Option ℕ
  right : ℕ → ℕ → Option ℕ
  array : ℕ → ℕ → ℕ

/-- `objects[j]`. -/
def objectAt (o : Outcomes) (t : TypeDescriptor) (mem : Memory) (j : ℕ) : ℕ :=
  if t.isInline then mem (t.data + j) else o.array t.data j

/-- An assignment to `objects[j]`; out of line it is to no word of the body. -/
def setObject (t : TypeDescriptor) (mem : Memory) (j object : ℕ) : Memory :=
  if t.isInline then update mem (t.data + j) object else mem

/-- The accesses for `objects[j]`. -/
def objectAccesses (t : TypeDescriptor) (j : ℕ) : List Access :=
  if t.isInline then [.object j t.length, .read (t.data + j) 4] else [.object j t.length]

/-- The loop over the ports of an item, from the place `j` on with so many to go. -/
def copyinObjects (o : Outcomes) (t : TypeDescriptor) : ℕ → ℕ → Memory → Option Memory × List Access
  | _, 0, mem => (some mem, [])
  | j, toGo + 1, mem =>
    let (outcome, accesses) :=
      if ¬ valid (objectAt o t mem j) then copyinObjects o t (j + 1) toGo mem
      else
        match o.right t.data j with
        | none => (none, [])
        | some object => copyinObjects o t (j + 1) toGo (setObject t mem j object)
    (outcome, objectAccesses t j ++ accesses)

/-- The pointer that takes the place of the address of out-of-line data. -/
def copyinData (o : Outcomes) (t : TypeDescriptor) : Option ℕ :=
  if t.length = 0 then some 0
  else if t.oldPort then
    match o.kalloc t.data with
    | none => none
    | some data =>
      if o.copyinmap t.data ∧ (t.dealloc → o.vmDeallocate t.data) then some data else none
  else o.vmMove t.data

/-- The part of the loop that places the data of an item, inline or out of line. -/
def placeData (o : Outcomes) (stop : ℕ) (mem : Memory) (t : TypeDescriptor) :
    Except Failure Memory × List Access :=
  if t.isInline then
    if stop - 4 * t.data < t.amount then (.error .msgTooSmall, []) else (.ok mem, [])
  else if stop - 4 * t.data < 4 then (.error .msgTooSmall, [])
  else
    match copyinData o t with
    | none => (.error .invalidMemory, [.read t.data 4])
    | some data => (.ok (update mem t.data data), [.read t.data 4])

/-- The part of the loop that copies in the ports of an item. -/
def copyinPorts (o : Outcomes) (mem : Memory) (p : ℕ) (t : TypeDescriptor) :
    Except Failure Memory × List Access :=
  if t.oldPort then
    match copyinObjects o t 0 t.number (setName mem p t.longform (copyinType t.name)) with
    | (none, accesses) => (.error .invalidRight, accesses)
    | (some mem, accesses) => (.ok mem, accesses)
  else (.ok mem, [])

/-- One turn of the loop of `ipc_kmsg_copyin_compat`, on a body of `stop` bytes: the memory after
it, or its failure, and its accesses. -/
def copyinItem (o : Outcomes) (stop : ℕ) (mem : Memory) (p : ℕ) :
    Except Failure Memory × List Access :=
  if stop - 4 * p < 4 then (.error .msgTooSmall, [])
  else
    let t := readType mem p
    if t.longform ∧ stop - 4 * p < 12 then (.error .msgTooSmall, [.read p 4])
    else
      let accesses := [.read p 4, .read p (4 * (t.data - p))]
      if t.oldPort ∧ t.size ≠ 32 then (.error .invalidType, accesses)
      else
        match placeData o stop (clearUnused mem p t.longform) t with
        | (.error failure, more) => (.error failure, accesses ++ more)
        | (.ok mem, more) =>
          let (outcome, objects) := copyinPorts o mem p t
          (outcome, accesses ++ more ++ objects)

/-- How the loop of the copyin ends: with the items it visited and the memory it leaves, or a
failure; and what it accessed. -/
structure Copyin where
  result : Except Failure (List Visit × Memory)
  accesses : List Access

/-- The loop of `ipc_kmsg_copyin_compat` from the word `p` on. -/
def copyinLoop (o : Outcomes) (stop : ℕ) : ℕ → ℕ → Memory → Option Copyin
  | 0, _, _ => none
  | fuel + 1, p, mem =>
    if 4 * p < stop then
      let t := readType mem p
      match copyinItem o stop mem p with
      | (.error failure, accesses) => some ⟨.error failure, accesses⟩
      | (.ok mem, accesses) =>
        match copyinLoop o stop fuel t.next mem with
        | none => none
        | some rest =>
          some ⟨rest.result.map fun (visits, mem) =>
              (⟨p, t.data, if t.oldPort then t.number else 0⟩ :: visits, mem),
            accesses ++ rest.accesses⟩
    else some ⟨.ok ([], mem), []⟩

/-! ## The walks over the rewritten body -/

/-- `while (eaddr < &objects[number]) number--`. -/
def sanityCheck (eaddr saddr : ℕ) : ℕ → ℕ
  | 0 => 0
  | number + 1 =>
    if eaddr < (saddr + 4 * (number + 1)) % 2 ^ 32 then sanityCheck eaddr saddr number
    else number + 1

/-- The loop of `ipc_kmsg_clean_body_compat`, on a body at the address `base`. -/
def cleanLoop (base stop : ℕ) : ℕ → ℕ → Memory → Option (List Visit)
  | 0, _, _ => none
  | fuel + 1, p, mem =>
    if 4 * p < stop then
      let t := readType mem p
      let number :=
        if t.isInline then sanityCheck (base + stop) (base + 4 * t.data) t.number else t.number
      (cleanLoop base stop fuel t.next mem).map
        (⟨p, t.data, if t.machPort then number else 0⟩ :: ·)
    else some []

/-- The answers that `ipc_kmsg_copyout_compat` gets: the name of a right, null if there is none, and
the address of out-of-line data, if there is room for it. -/
structure Answers where
  name : ℕ → ℕ → ℕ
  address : ℕ → Option ℕ

/-- The address that takes the place of the pointer to out-of-line data. -/
def copyoutData (a : Answers) (t : TypeDescriptor) : ℕ :=
  if t.length = 0 then 0 else (a.address t.data).getD 0

/-- The loop over the ports of an item in the copyout. -/
def copyoutObjects (a : Answers) (t : TypeDescriptor) : ℕ → ℕ → Memory → Memory
  | _, 0, mem => mem
  | j, toGo + 1, mem =>
    -- the objects of an array out of line are in no word of the body
    copyoutObjects a t (j + 1) toGo
      (setObject t mem j (if valid (mem (t.data + j)) then a.name t.data j else 0))

/-- The loop of `ipc_kmsg_copyout_compat`; a type it has no old name for stops the kernel. -/
def copyoutLoop (a : Answers) (stop : ℕ) : ℕ → ℕ → Memory → Option (List Visit)
  | 0, _, _ => none
  | fuel + 1, p, mem =>
    if 4 * p < stop then
      let t := readType mem p
      let named : Option Memory :=
        if t.machPort then
          -- without room for its array the item is cleaned and keeps its name
          if t.isInline = false ∧ t.length ≠ 0 ∧ a.address t.data = none then some mem
          else
            (copyoutTypeCompat t.name).map fun name =>
              copyoutObjects a t 0 t.number (setName mem p t.longform name)
        else some mem
      named.bind fun mem =>
        let mem := if t.isInline then mem else update mem t.data (copyoutData a t)
        (copyoutLoop a stop fuel t.next mem).map
          (⟨p, t.data, if t.machPort then t.number else 0⟩ :: ·)
    else some []

end Darwin.Ipc.Compat
