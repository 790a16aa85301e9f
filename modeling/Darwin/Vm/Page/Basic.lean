import Mathlib.Data.BitVec

/-!
# Resident pages

A model of the page queues and of the object/offset table of `vm_resident.c`.  Every physical page
is on the free, the active or the inactive queue or on none of them, and its flags say on which.  A
page that belongs to a memory object is *tabled*: it hangs in a bucket of the hash table and on the
object's list.  The pageout daemon puts pages on the free queue without taking them out of the
table, so that `vm_fault` can find them again.

`vm_page_alloc` ends with the sequential access policy of `vm_policy.c`, which may free the page
allocated before.
-/

namespace Darwin.Vm

open Function (update)

/-- The queues of physical pages. -/
inductive PageQueue where
  | free
  | active
  | inactive
  deriving DecidableEq, Repr

/-- The fields of `struct vm_page` that the queue and table operations use.  `on q` is the flag
`free`, `active` or `inactive`. -/
structure Page (O : Type*) where
  object : O
  offset : BitVec 32
  wireCount : BitVec 16
  on : PageQueue → Bool
  laundry : Bool
  clean : Bool
  tabled : Bool
  fictitious : Bool

/-- The page queues with their counts, the table, and the fields of the objects. -/
structure Resident (P O : Type*) where
  page : P → Page O
  queue : PageQueue → List P
  count : PageQueue → ℤ
  wireCount : ℤ
  buckets : ℕ → List P
  memq : O → List P
  residentPageCount : O → ℤ
  lastAlloc : O → BitVec 32

section Operations

variable {P O : Type*} [DecidableEq P] [DecidableEq O]

/-! ## The table -/

/-- `vm_page_insert`; `none` is its panic. -/
def pageInsert (hash : O → BitVec 32 → ℕ) (s : Resident P O) (mem : P) (object : O)
    (offset : BitVec 32) : Option (Resident P O) :=
  if (s.page mem).tabled then
    none
  else
    let bucket := hash object offset
    some { s with
      page := update s.page mem
        { s.page mem with object := object, offset := offset, tabled := true }
      buckets := update s.buckets bucket (mem :: s.buckets bucket)
      memq := update s.memq object (s.memq object ++ [mem])
      residentPageCount :=
        update s.residentPageCount object (s.residentPageCount object + 1) }

/-- `vm_page_remove`. -/
def pageRemove (hash : O → BitVec 32 → ℕ) (s : Resident P O) (mem : P) : Resident P O :=
  if !(s.page mem).tabled then
    s
  else
    let object := (s.page mem).object
    let bucket := hash object (s.page mem).offset
    { s with
      page := update s.page mem { s.page mem with tabled := false }
      buckets := update s.buckets bucket ((s.buckets bucket).erase mem)
      memq := update s.memq object ((s.memq object).erase mem)
      residentPageCount :=
        update s.residentPageCount object (s.residentPageCount object - 1) }

/-- `vm_page_lookup`. -/
def pageLookup (hash : O → BitVec 32 → ℕ) (s : Resident P O) (object : O) (offset : BitVec 32) :
    Option P :=
  (s.buckets (hash object offset)).find? fun mem =>
    (s.page mem).object = object ∧ (s.page mem).offset = offset

/-- `vm_page_rename`. -/
def pageRename (hash : O → BitVec 32 → ℕ) (s : Resident P O) (mem : P) (newObject : O)
    (newOffset : BitVec 32) : Option (Resident P O) :=
  pageInsert hash (pageRemove hash s mem) mem newObject newOffset

/-! ## The queues -/

/-- Change the flag of one page for one queue. -/
def setFlag (s : Resident P O) (q : PageQueue) (mem : P) (value : Bool) : P → Page O :=
  update s.page mem { s.page mem with on := update (s.page mem).on q value }

/-- The stretch of code that takes a page off a queue if its flag is set. -/
def takeOff (s : Resident P O) (q : PageQueue) (mem : P) : Resident P O :=
  if (s.page mem).on q then
    { s with
      page := setFlag s q mem false
      queue := update s.queue q ((s.queue q).erase mem)
      count := update s.count q (s.count q - 1) }
  else
    s

/-- A page enters a queue at its end. -/
def enter (s : Resident P O) (q : PageQueue) (mem : P) : Resident P O :=
  { s with
    page := setFlag s q mem true
    queue := update s.queue q (s.queue q ++ [mem])
    count := update s.count q (s.count q + 1) }

/-- A page enters a queue at its head. -/
def enterFirst (s : Resident P O) (q : PageQueue) (mem : P) : Resident P O :=
  { s with
    page := setFlag s q mem true
    queue := update s.queue q (mem :: s.queue q)
    count := update s.count q (s.count q + 1) }

/-- `vm_page_addfree`. -/
def pageAddfree (s : Resident P O) (mem : P) : Resident P O :=
  let s := takeOff s .active mem
  let s := takeOff s .inactive mem
  if !(s.page mem).fictitious then enter s .free mem else s

/-- `vm_page_free`. -/
def pageFree (hash : O → BitVec 32 → ℕ) (s : Resident P O) (mem : P) : Resident P O :=
  let s := pageRemove hash s mem
  if !(s.page mem).on .free then pageAddfree s mem else s

/-- `vm_page_free_head`. -/
def pageFreeHead (hash : O → BitVec 32 → ℕ) (s : Resident P O) (mem : P) : Resident P O :=
  let s := pageRemove hash s mem
  if (s.page mem).on .free then
    s
  else
    let s := takeOff s .active mem
    let s := takeOff s .inactive mem
    if !(s.page mem).fictitious then enterFirst s .free mem else s

/-- `mem->wire_count = n`. -/
def setWireCount (s : Resident P O) (mem : P) (n : BitVec 16) : Resident P O :=
  { s with page := update s.page mem { s.page mem with wireCount := n } }

/-- `vm_page_wire`. -/
def pageWire (s : Resident P O) (mem : P) : Resident P O :=
  let s :=
    if (s.page mem).wireCount = 0#16 then
      let s := takeOff s .active mem
      let s := takeOff s .inactive mem
      let s := takeOff s .free mem
      { s with wireCount := s.wireCount + 1 }
    else
      s
  setWireCount s mem ((s.page mem).wireCount + 1#16)

/-- `vm_page_unwire`. -/
def pageUnwire (s : Resident P O) (mem : P) : Resident P O :=
  let s := setWireCount s mem ((s.page mem).wireCount - 1#16)
  if (s.page mem).wireCount = 0#16 then
    let s := enter s .active mem
    { s with wireCount := s.wireCount - 1 }
  else
    s

/-- The end of `_vm_page_deactivate`: a page that was modified is not clean, and a page that is not
clean is in the laundry. -/
def sortLaundry (s : Resident P O) (mem : P) (modified : Bool) : Resident P O :=
  let clean := (s.page mem).clean && !modified
  { s with page := update s.page mem { s.page mem with clean := clean, laundry := !clean } }

/-- `_vm_page_deactivate`; `modified` is `pmap_is_modified`. -/
def pageDeactivateAge (s : Resident P O) (mem : P) (age modified : Bool) : Resident P O :=
  if (s.page mem).on .active then
    let s := takeOff s .active mem
    let s := if age then enterFirst s .inactive mem else enter s .inactive mem
    sortLaundry s mem modified
  else
    s

/-- `vm_page_deactivate`. -/
def pageDeactivate (s : Resident P O) (mem : P) (modified : Bool) : Resident P O :=
  pageDeactivateAge s mem false modified

/-- `vm_page_activate`; `none` is its panic. -/
def pageActivate (s : Resident P O) (mem : P) : Option (Resident P O) :=
  let s := takeOff s .inactive mem
  let s := takeOff s .free mem
  if (s.page mem).wireCount = 0#16 then
    if (s.page mem).on .active then none else some (enter s .active mem)
  else
    some s

/-- The part of `vm_fault` that takes the page it found off the queues. -/
def faultTakePage (s : Resident P O) (mem : P) : Resident P O :=
  let s := takeOff s .inactive mem
  let s := takeOff s .active mem
  takeOff s .free mem

/-! ## Allocation -/

def vmPolicySeqFree : BitVec 16 := 1#16
def vmPolicySeqDeactivate : BitVec 16 := 2#16
def vmPolicySequential : BitVec 16 := vmPolicySeqFree ||| vmPolicySeqDeactivate

/-- The temperatures with which `vm_page_alloc` calls `vm_policy_apply`. -/
inductive Deactivate where
  | now
  | soon
  deriving DecidableEq, Repr

/-- `vm_policy_apply` on a page, as `vm_page_alloc` calls it. -/
def policyApply (hash : O → BitVec 32 → ℕ) (s : Resident P O) (shared : Bool) (mem : P)
    (temperature : Deactivate) (modified : Bool) : Resident P O :=
  if shared then
    s
  else
    match temperature with
    | .now =>
      if (s.page mem).clean && !modified then
        pageFreeHead hash s mem
      else
        if (s.page mem).on .active then pageDeactivate s mem modified else s
    | .soon => if (s.page mem).on .active then pageDeactivate s mem modified else s

/-- What `vm_page_alloc_sequential` depends on besides the pages: its arguments, the privilege of
the thread and the reserve, the page size, the policy of the object and whether it is shared, and
the modify bits of the physical maps. -/
structure AllocCall (P O : Type*) where
  object : O
  offset : BitVec 32
  sequentialUnmap : Bool
  privileged : Bool
  freeReserved : ℤ
  pageSize : BitVec 32
  policy : BitVec 16
  shared : Bool
  modified : P → Bool

/-- `vm_page_template` with a physical page's own fields: what an allocated page is reset to. -/
def pageTemplate (object : O) : Page O where
  object := object
  offset := 0#32
  wireCount := 0#16
  on := fun _ => false
  laundry := false
  clean := true
  tabled := false
  fictitious := false

/-- The assignment of the template in `vm_page_init`. -/
def resetPage (s : Resident P O) (mem : P) : Resident P O :=
  { s with page := update s.page mem (pageTemplate (s.page mem).object) }

/-- `abs(offset - object->last_alloc) == PAGE_SIZE`. -/
def Adjacent (pageSize offset last : BitVec 32) : Prop :=
  offset - last = pageSize ∨ last - offset = pageSize

instance (pageSize offset last : BitVec 32) : Decidable (Adjacent pageSize offset last) :=
  inferInstanceAs (Decidable (_ ∨ _))

/-- The end of `vm_page_alloc_sequential`: detect sequential access and deactivate or free the page
allocated before. -/
def allocPolicy (hash : O → BitVec 32 → ℕ) (s : Resident P O) (call : AllocCall P O) :
    Resident P O :=
  let s :=
    if call.policy &&& vmPolicySequential ≠ 0#16 ∧ call.sequentialUnmap = true ∧
        Adjacent call.pageSize call.offset (s.lastAlloc call.object) then
      match pageLookup hash s call.object (s.lastAlloc call.object) with
      | none => s
      | some last =>
        let temperature := if call.policy = vmPolicySeqDeactivate then .soon else .now
        policyApply hash s call.shared last temperature (call.modified last)
    else
      s
  { s with lastAlloc := update s.lastAlloc call.object call.offset }

/-- The outcome of `vm_page_alloc_sequential`. -/
inductive Allocated (P O : Type*) where
  /-- `VM_PAGE_NULL`. -/
  | exhausted
  | page (mem : P) (s : Resident P O)
  | panic

/-- `vm_page_alloc_sequential`. -/
def pageAlloc (hash : O → BitVec 32 → ℕ) (s : Resident P O) (call : AllocCall P O) :
    Allocated P O :=
  match s.queue .free with
  | [] => .exhausted
  | mem :: rest =>
    if s.count .free < call.freeReserved ∧ call.privileged = false then
      .exhausted
    else
      let s := { s with
        page := setFlag s .free mem false
        queue := update s.queue .free rest
        count := update s.count .free (s.count .free - 1) }
      -- the page may still be in the hash table
      let s := pageRemove hash s mem
      let s := resetPage s mem
      match pageInsert hash s mem call.object call.offset with
      | none => .panic
      | some s => .page mem (allocPolicy hash s call)

end Operations

end Darwin.Vm
