import Darwin.Ipc.Entry.Invariant

/-!
# Copying in rights

A model of the part of `ipc_right.c` that takes rights out of a space: the check of a dead port, the
prediction `ipc_right_copyin_check`, `ipc_right_copyin` with its undo, and the copyin of two send
rights at once.  The entry stands in an `IpcSpace`; the ports it names are a function of their
addresses.

## Main definitions

* `RightState`: a space with its ports, reverse hash table and msg-accepted requests
* `RightState.rightCopyinCheck`, `RightState.rightCopyin`, `RightState.rightCopyinUndo`,
  `RightState.rightCopyinTwo`
-/

namespace Darwin.Ipc

open Function (update)

/-- `MACH_MSG_TYPE_MOVE_RECEIVE` to `MACH_MSG_TYPE_MAKE_SEND_ONCE`. -/
inductive MsgType where
  | moveReceive
  | moveSend
  | moveSendOnce
  | copySend
  | makeSend
  | makeSendOnce
  deriving DecidableEq, Repr

/-- An object pointer: `IO_NULL`, `IO_DEAD` or the address of a port. -/
inductive IpcObject where
  | null
  | dead
  | port (address : ℕ)
  deriving DecidableEq, Repr

/-- The failures of a copyin. -/
inductive RightError where
  | invalidRight
  | invalidName
  deriving DecidableEq, Repr

def ieBitsUrefsMask : BitVec 32 := 0x0000ffff#32
def typeSend : BitVec 32 := 0x00010000#32
def typeReceive : BitVec 32 := 0x00020000#32
def typeSendOnce : BitVec 32 := 0x00040000#32
def typeDeadName : BitVec 32 := 0x00100000#32
def typeSendRights : BitVec 32 := typeSend ||| typeSendOnce
def ieBitsMarequest : BitVec 32 := 0x00200000#32
def ieBitsCompat : BitVec 32 := 0x00400000#32

/-- `IE_BITS_UREFS`. -/
def ieBitsUrefs (bits : BitVec 32) : ℕ := (bits &&& ieBitsUrefsMask).toNat

/-- `MACH_PORT_UREFS_MAX`. -/
def machPortUrefsMax : ℕ := 2 ^ 16 - 1

/-- The fields of an `ipc_port` that the rights of a space use.  A dead-name request is registered
under an index with the send-once right its notification uses. -/
structure IpcPort where
  active : Bool
  references : ℕ
  srights : ℕ
  sorights : ℕ
  mscount : ℕ
  seqno : ℕ
  timestamp : BitVec 32
  receiverName : ℕ
  destination : ℕ
  dnrequests : ℕ → Option ℕ

/-- A space with what its rights refer to. -/
structure RightState where
  isActive : Bool
  space : IpcSpace
  ports : ℕ → IpcPort
  hash : ℕ → Option ℕ
  marequests : ℕ → Bool

/-- The allocation policy of a space: the table sizes and the choice of `ipc_splay_tree_pick`. -/
structure SpacePolicy where
  sizes : ℕ → ℕ
  pick : Finset ℕ → ℕ

/-- Replace the entry a pointer refers to. -/
def IpcSpace.setEntry (s : IpcSpace) (ref : EntryRef) (e : IpcEntry) : IpcSpace :=
  match ref with
  | .slot index => s.setSlot index e
  | .tree name => { s with tree := { s.tree with entry := update s.tree.entry name e } }

namespace RightState

/-- The entry a pointer refers to. -/
def entry (s : RightState) (ref : EntryRef) : IpcEntry := s.space.entry ref

/-- Replace an entry. -/
def setEntry (s : RightState) (ref : EntryRef) (e : IpcEntry) : RightState :=
  { s with space := s.space.setEntry ref e }

/-- Change a port. -/
def modifyPort (s : RightState) (port : ℕ) (f : IpcPort → IpcPort) : RightState :=
  { s with ports := update s.ports port (f (s.ports port)) }

/-- `ip_reference`. -/
def reference (s : RightState) (port : ℕ) : RightState :=
  s.modifyPort port fun p => { p with references := p.references + 1 }

/-- `ip_release`. -/
def release (s : RightState) (port : ℕ) : RightState :=
  s.modifyPort port fun p => { p with references := p.references - 1 }

/-- `ipc_object_release`, where the object is a port. -/
def releaseObject (s : RightState) : IpcObject → RightState
  | .port port => s.release port
  | _ => s

/-- `ipc_marequest_cancel`. -/
def marequestCancel (s : RightState) (name : ℕ) : RightState :=
  { s with marequests := update s.marequests name false }

/-- `ipc_hash_insert`. -/
def hashInsert (s : RightState) (object name : ℕ) : RightState :=
  { s with hash := update s.hash object (some name) }

/-- `ipc_hash_delete`. -/
def hashDelete (s : RightState) (object : ℕ) : RightState :=
  { s with hash := update s.hash object none }

/-- `ipc_right_dncancel_macro`: take back the dead-name request of an entry, if it has one. -/
def dncancelMacro (s : RightState) (port : ℕ) (ref : EntryRef) : Option ℕ × RightState :=
  let e := s.entry ref
  if e.index = 0 then (none, s)
  else
    let dnrequest := (s.ports port).dnrequests e.index
    let s := s.modifyPort port fun p =>
      { p with dnrequests := update p.dnrequests e.index none }
    let s := s.setEntry ref { e with index := 0 }
    -- in a compat entry this is a pointer to the space, whose reference is released
    if e.bits &&& ieBitsCompat ≠ 0 then (none, s) else (dnrequest, s)

/-- The first part of `ipc_right_check` on a dead port: a send right leaves the reverse hash table
and loses its msg-accepted request.  The bits are those of the entry without that request. -/
def forgetSend (s : RightState) (port name : ℕ) (ref : EntryRef) : BitVec 32 × RightState :=
  let bits := (s.entry ref).bits
  if bits &&& typeSend ≠ 0 then
    if bits &&& ieBitsMarequest ≠ 0 then
      (bits &&& ~~~ieBitsMarequest, (s.marequestCancel name).hashDelete port)
    else (bits, s.hashDelete port)
  else (bits, s)

/-- The bits of an entry that becomes a dead name: a dead-name request counts as a reference. -/
def deadNameBits (bits : BitVec 32) (request : ℕ) : BitVec 32 :=
  let bits := (bits &&& ~~~ieBitsTypeMask) ||| typeDeadName
  if request ≠ 0 then bits + 1 else bits

/-- `ipc_right_check`: whether the port has died, and then its entry becomes a dead name, or goes
if it is a compat entry. -/
def rightCheck (s : RightState) (policy : SpacePolicy) (port name : ℕ) (ref : EntryRef) :
    Bool × RightState :=
  if (s.ports port).active then (false, s)
  else
    let e := s.entry ref
    let bits := (s.forgetSend port name ref).1
    let s := (s.forgetSend port name ref).2.release port
    if bits &&& ieBitsCompat ≠ 0 then
      let s := s.setEntry ref { e with object := 0, index := 0 }
      (true, { s with space := s.space.dealloc policy.sizes policy.pick name ref })
    else (true, s.setEntry ref ⟨deadNameBits bits e.index, 0, 0⟩)

/-- `ipc_right_copyin_check`. -/
def rightCopyinCheck (s : RightState) (ref : EntryRef) (msgtName : MsgType) : Bool :=
  let e := s.entry ref
  let bits := e.bits
  match msgtName with
  | .makeSend | .makeSendOnce | .moveReceive => bits &&& typeReceive ≠ 0
  | .copySend | .moveSend | .moveSendOnce =>
    if bits &&& typeDeadName ≠ 0 then true
    else if bits &&& typeSendRights = 0 then false
    else if (s.ports e.object).active = false then bits &&& ieBitsCompat = 0
    else if msgtName = .moveSendOnce then bits &&& typeSendOnce ≠ 0
    else bits &&& typeSend ≠ 0

/-- The label `copy_dead` of `ipc_right_copyin`. -/
def copyDead (s : RightState) (deadok : Bool) :
    Except RightError (IpcObject × Option ℕ) × RightState :=
  if deadok = false then (.error .invalidRight, s) else (.ok (.dead, none), s)

/-- The label `move_dead` of `ipc_right_copyin`. -/
def moveDead (s : RightState) (ref : EntryRef) (deadok : Bool) :
    Except RightError (IpcObject × Option ℕ) × RightState :=
  if deadok = false then (.error .invalidRight, s)
  else
    let e := s.entry ref
    let bits := if ieBitsUrefs e.bits = 1 then e.bits &&& ~~~typeDeadName else e.bits - 1
    (.ok (.dead, none), s.setEntry ref { e with bits := bits })

/-- `ipc_right_copyin` for `MACH_MSG_TYPE_MOVE_RECEIVE`, where the entry has the right. -/
def moveReceive (s : RightState) (name : ℕ) (ref : EntryRef) :
    Except RightError (IpcObject × Option ℕ) × RightState :=
  let bits := (s.entry ref).bits
  let port := (s.entry ref).object
  let (dnrequest, s) :=
    if bits &&& typeSend ≠ 0 then (none, (s.hashInsert port name).reference port)
    else
      let (dnrequest, s) := s.dncancelMacro port ref
      let s := if bits &&& ieBitsMarequest ≠ 0 then s.marequestCancel name else s
      (dnrequest, s.setEntry ref { s.entry ref with object := 0 })
  let s := s.setEntry ref { s.entry ref with bits := bits &&& ~~~typeReceive }
  -- `ipc_port_clear_receiver`
  let s := s.modifyPort port fun p =>
    { p with mscount := 0, seqno := 0, receiverName := 0, destination := 0 }
  (.ok (.port port, dnrequest), s)

/-- `ipc_right_copyin` for `MACH_MSG_TYPE_MOVE_SEND`, where the entry has the right and its port is
alive. -/
def moveSend (s : RightState) (name : ℕ) (ref : EntryRef) :
    Except RightError (IpcObject × Option ℕ) × RightState :=
  let bits := (s.entry ref).bits
  let port := (s.entry ref).object
  if ieBitsUrefs bits = 1 then
    let (dnrequest, s) :=
      if bits &&& typeReceive ≠ 0 then (none, s.reference port)
      else
        let (dnrequest, s) := s.dncancelMacro port ref
        let s := s.hashDelete port
        let s := if bits &&& ieBitsMarequest ≠ 0 then s.marequestCancel name else s
        (dnrequest, s.setEntry ref { s.entry ref with object := 0 })
    (.ok (.port port, dnrequest),
      s.setEntry ref { s.entry ref with bits := bits &&& ~~~(ieBitsUrefsMask ||| typeSend) })
  else
    let s := s.modifyPort port fun p =>
      { p with srights := p.srights + 1, references := p.references + 1 }
    (.ok (.port port, none), s.setEntry ref { s.entry ref with bits := bits - 1 })

/-- `ipc_right_copyin` for `MACH_MSG_TYPE_MOVE_SEND_ONCE`, where the entry has the right and its
port is alive. -/
def moveSendOnce (s : RightState) (ref : EntryRef) :
    Except RightError (IpcObject × Option ℕ) × RightState :=
  let bits := (s.entry ref).bits
  let port := (s.entry ref).object
  let (dnrequest, s) := s.dncancelMacro port ref
  (.ok (.port port, dnrequest),
    s.setEntry ref { s.entry ref with object := 0, bits := bits &&& ~~~typeSendOnce })

/-- `ipc_right_copyin`: the object and a send-once right for a port-deleted notification. -/
def rightCopyin (s : RightState) (policy : SpacePolicy) (name : ℕ) (ref : EntryRef)
    (msgtName : MsgType) (deadok : Bool) :
    Except RightError (IpcObject × Option ℕ) × RightState :=
  let e := s.entry ref
  let bits := e.bits
  let port := e.object
  match msgtName with
  | .makeSend =>
    if bits &&& typeReceive = 0 then (.error .invalidRight, s)
    else
      (.ok (.port port, none), s.modifyPort port fun p =>
        { p with
          mscount := p.mscount + 1, srights := p.srights + 1, references := p.references + 1 })
  | .makeSendOnce =>
    if bits &&& typeReceive = 0 then (.error .invalidRight, s)
    else
      (.ok (.port port, none), s.modifyPort port fun p =>
        { p with sorights := p.sorights + 1, references := p.references + 1 })
  | .moveReceive =>
    if bits &&& typeReceive = 0 then (.error .invalidRight, s) else s.moveReceive name ref
  | .copySend =>
    if bits &&& typeDeadName ≠ 0 then s.copyDead deadok
    else if bits &&& typeSendRights = 0 then (.error .invalidRight, s)
    else
      match s.rightCheck policy port name ref with
      | (true, s) =>
        if bits &&& ieBitsCompat ≠ 0 then (.error .invalidName, s) else s.copyDead deadok
      | (false, s) =>
        if bits &&& typeSend = 0 then (.error .invalidRight, s)
        else
          (.ok (.port port, none), s.modifyPort port fun p =>
            { p with srights := p.srights + 1, references := p.references + 1 })
  | .moveSend =>
    if bits &&& typeDeadName ≠ 0 then s.moveDead ref deadok
    else if bits &&& typeSendRights = 0 then (.error .invalidRight, s)
    else
      match s.rightCheck policy port name ref with
      | (true, s) =>
        if bits &&& ieBitsCompat ≠ 0 then (.error .invalidName, s) else s.moveDead ref deadok
      | (false, s) =>
        if bits &&& typeSend = 0 then (.error .invalidRight, s) else s.moveSend name ref
  | .moveSendOnce =>
    if bits &&& typeDeadName ≠ 0 then s.moveDead ref deadok
    else if bits &&& typeSendRights = 0 then (.error .invalidRight, s)
    else
      match s.rightCheck policy port name ref with
      | (true, s) =>
        if bits &&& ieBitsCompat ≠ 0 then (.error .invalidName, s) else s.moveDead ref deadok
      | (false, s) =>
        if bits &&& typeSendOnce = 0 then (.error .invalidRight, s) else s.moveSendOnce ref

/-- `ipc_right_copyin_undo`.  In its last branch the object is that of the entry, as the source
asserts. -/
def rightCopyinUndo (s : RightState) (policy : SpacePolicy) (name : ℕ) (ref : EntryRef)
    (msgtName : MsgType) (object : IpcObject) (soright : Option ℕ) : RightState :=
  let e := s.entry ref
  let bits := e.bits
  let s :=
    if soright.isSome then
      s.setEntry ref { e with bits := (bits &&& ~~~ieBitsRightMask) ||| typeDeadName ||| 2 }
    else if ieBitsType bits = 0 then
      s.setEntry ref { e with bits := (bits &&& ~~~ieBitsRightMask) ||| typeDeadName ||| 1 }
    else if ieBitsType bits = typeDeadName then
      if msgtName ≠ .copySend then s.setEntry ref { e with bits := bits + 1 } else s
    else
      let s := if msgtName ≠ .copySend then s.setEntry ref { e with bits := bits + 1 } else s
      (s.rightCheck policy e.object name ref).2
  s.releaseObject object

/-- `ipc_right_copyin_two`. -/
def rightCopyinTwo (s : RightState) (policy : SpacePolicy) (name : ℕ) (ref : EntryRef) :
    Except RightError (IpcObject × Option ℕ) × RightState :=
  let e := s.entry ref
  let bits := e.bits
  let port := e.object
  if bits &&& typeSend = 0 then (.error .invalidRight, s)
  else if ieBitsUrefs bits < 2 then (.error .invalidRight, s)
  else
    match s.rightCheck policy port name ref with
    | (true, s) =>
      (.error (if bits &&& ieBitsCompat ≠ 0 then .invalidName else .invalidRight), s)
    | (false, s) =>
      if ieBitsUrefs bits = 2 then
        let (dnrequest, s) :=
          if bits &&& typeReceive ≠ 0 then
            (none, s.modifyPort port fun p =>
              { p with srights := p.srights + 1, references := p.references + 2 })
          else
            let (dnrequest, s) := s.dncancelMacro port ref
            let s := s.hashDelete port
            let s := if bits &&& ieBitsMarequest ≠ 0 then s.marequestCancel name else s
            let s := s.modifyPort port fun p =>
              { p with srights := p.srights + 1, references := p.references + 1 }
            (dnrequest, s.setEntry ref { s.entry ref with object := 0 })
        (.ok (.port port, dnrequest),
          s.setEntry ref { s.entry ref with bits := bits &&& ~~~(ieBitsUrefsMask ||| typeSend) })
      else
        let s := s.modifyPort port fun p =>
          { p with srights := p.srights + 2, references := p.references + 2 }
        (.ok (.port port, none), s.setEntry ref { s.entry ref with bits := bits - 2 })

end RightState

end Darwin.Ipc
