import Darwin.Ipc.Entry.Basic
import Darwin.Ipc.Table
import Darwin.Lib.PointerChain

/-!
# Dead-name requests

A model of `ipc_port_dnrequest`, `ipc_port_dngrow` and `ipc_port_dncancel`.  A port has a table of
requests.  Slot 0 is its header: the first free slot and the position of the table's size in the
array of sizes.  `ipc_port_dngrow` gives up the lock of the port while it allocates the new table,
so that it is modelled by two steps, the choice of a size and the exchange of the tables, between
which other operations and the death of the port can take place.
-/

namespace Darwin.Ipc

/-- An `ipc_port_request`.  `notify` is the union of `ipr_soright` in a request and `ipr_next` in a
free slot; the name of a free slot is `MACH_PORT_NULL`, zero. -/
structure PortRequest where
  notify : ℕ
  name : ℕ
  deriving DecidableEq

/-- A table of requests: its address, the header in slot 0, and the other slots.  `size` is the
position in the array of sizes that `ipr_size` points to. -/
structure RequestTable where
  address : ℕ
  next : ℕ
  size : ℕ
  request : ℕ → PortRequest

/-- The fields of a port that the operations on requests use. -/
structure RequestPort where
  active : Bool
  dnrequests : Option RequestTable

namespace RequestPort

/-- `ipc_port_dnrequest`: the index of a request, if there is a free slot. -/
def dnrequest (port : RequestPort) (name soright : ℕ) : Except KernReturn ℕ × RequestPort :=
  match port.dnrequests with
  | none => (.error .noSpace, port)
  | some table =>
    let index := table.next
    if index = 0 then (.error .noSpace, port)
    else
      let table := { table with
        next := (table.request index).notify
        request := Function.update table.request index ⟨soright, name⟩ }
      (.ok index, { port with dnrequests := some table })

/-- `ipc_port_dncancel`: the send-once right of a request, whose slot becomes free.  The code
asserts that there is a table. -/
def dncancel (port : RequestPort) (index : ℕ) : Option ℕ × RequestPort :=
  match port.dnrequests with
  | none => (none, port)
  | some table =>
    let dnrequest := (table.request index).notify
    let table := { table with
      next := index
      request := Function.update table.request index ⟨table.next, 0⟩ }
    (some dnrequest, { port with dnrequests := some table })

/-- The loop of `ipc_port_dngrow` that looks for a size of `target` slots. -/
def searchSize (sizes : ℕ → ℕ) (target : ℕ) : (fuel its : ℕ) → ℕ
  | 0, its => its
  | fuel + 1, its =>
    if sizes its ≠ 0 ∧ sizes its < target then searchSize sizes target fuel (its + 1) else its

/-- Where the search for a size begins: after the size of the table. -/
def nextSize (port : RequestPort) : ℕ :=
  match port.dnrequests with
  | none => 0
  | some table => table.size + 1

/-- The part of `ipc_port_dngrow` before the lock of the port is given up: a result, or the position
of the size to allocate.  A `target` that is negative as an `int` is large here, as `its_size` is
unsigned. -/
def dngrowSize (sizes : ℕ → ℕ) (port : RequestPort) (target : BitVec 32) : Except KernReturn ℕ :=
  if target ≠ Table.itsSizeNone then
    if port.dnrequests.any fun table => target.toNat ≤ sizes table.size then .error .success
    else
      let its := searchSize sizes target.toNat Table.ipcTableDnrequestsSize port.nextSize
      if sizes its = 0 then .error .noSpace else .ok its
  else
    let its := port.nextSize
    if sizes its = 0 then .error .resourceShortage else .ok its

/-- Put `count` slots from `i` on the free list that starts at `free`. -/
def addFree (request : ℕ → PortRequest) : (count i free : ℕ) → (ℕ → PortRequest) × ℕ
  | 0, _, free => (request, free)
  | count + 1, i, free => addFree (Function.update request i ⟨free, 0⟩) count (i + 1) i

/-- The new table of `ipc_port_dngrow`, at `address`: the slots of the old one and new free slots.
-/
def newTable (sizes : ℕ → ℕ) (otable : Option RequestTable) (its address : ℕ) : RequestTable :=
  let osize := match otable with
    | none => 1
    | some otable => sizes otable.size
  let free := match otable with
    | none => 0
    | some otable => otable.next
  let copied := match otable with
    | none => fun _ => ⟨0, 0⟩
    | some otable => otable.request
  let added := addFree copied (sizes its - osize) osize free
  ⟨address, added.2, its, added.1⟩

/-- The part of `ipc_port_dngrow` after the lock was taken again, with the new table at `address`:
the tables are exchanged if the port is active, still has the table `otable` and the size is the one
after the size of that table. -/
def dngrowFinish (sizes : ℕ → ℕ) (port : RequestPort) (otable : Option ℕ) (its address : ℕ) :
    KernReturn × RequestPort :=
  if port.active = true ∧ port.dnrequests.map RequestTable.address = otable ∧
      (otable = none ∨ port.nextSize = its) then
    (.success, { port with dnrequests := some (newTable sizes port.dnrequests its address) })
  else (.success, port)

end RequestPort

end Darwin.Ipc
