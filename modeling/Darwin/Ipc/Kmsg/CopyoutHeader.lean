import Darwin.Ipc.Kmsg.CopyinHeader

/-!
# Copying out the header of a message

A model of `ipc_kmsg_copyout_header` without a notify port, and of `ipc_kmsg_copyout_object`: the
cases they inline, and the general code that gives the receiver's space a right.

## Main definitions

* `CopyoutState`: a space as the receiver of messages
* `copyoutAsync`, `copyoutRequest`, `copyoutReply`: the inlined cases of the header
* `copyoutHeaderGeneral`: the code they fall through to
* `quickCopyout`, `copyoutObjectGeneral`: the two ways to copy out an object
-/

namespace Darwin.Ipc

/-- A space and its ports, with what the copyout needs to know of a port besides: whether the space
is its receiver, and its no-senders request. -/
structure CopyoutState extends RightState where
  received : ℕ → Bool
  nsrequest : ℕ → Option ℕ

/-- The result codes of the copyout. -/
inductive CopyoutReturn where
  | success
  | headerErrorSpace
  | headerErrorKernel
  | ipcSpace
  | ipcKernel
  /-- The bound on the iterations of a modelled loop was reached; the C loop has no such exit. -/
  | unfinished
  deriving DecidableEq, Repr

/-- The result codes of `ipc_object_copyout`. -/
inductive ObjectReturn where
  | invalidTask
  | invalidCapability
  | kern (code : KernReturn)
  | urefsOverflow
  deriving DecidableEq, Repr

/-- The notifications a copyout sends. -/
inductive CopyoutNotice where
  | noSenders (nsrequest mscount : ℕ)
  | sendOnce (port : ℕ)
  deriving DecidableEq, Repr

/-- The rights that a header holds after its copyin. -/
inductive SendType where
  | send
  | sendOnce
  deriving DecidableEq, Repr

/-- The number of a type in a message header. -/
def SendType.code : SendType → ℕ
  | send => 17
  | sendOnce => 18

/-- The tables that can be allocated when a space grows, and how often the loops are repeated at
most. -/
structure Growth where
  sizes : ℕ → ℕ
  memory : ℕ → Bool
  growFuel : ℕ
  fuel : ℕ

/-- A header as its copyin leaves it: the type and port of its destination, and of its reply if it
has one. -/
structure KernelHeader where
  other : BitVec 32
  destType : SendType
  dest : ℕ
  replyType : Option SendType
  reply : IpcObject
  noReply : replyType = none → reply = .null

/-- `msgh_bits` of a header. -/
def KernelHeader.bits (m : KernelHeader) : BitVec 32 :=
  msghBitsOther m.other ||| msghBits m.destType.code ((m.replyType.map SendType.code).getD 0)

/-- What a copyout of a header leaves behind. -/
structure CopyoutOutcome where
  result : CopyoutReturn
  header : MsgHeader
  state : CopyoutState
  notices : List CopyoutNotice

namespace CopyoutState

/-- Change the rights and ports. -/
def modifyRights (s : CopyoutState) (f : RightState → RightState) : CopyoutState :=
  { s with toRightState := f s.toRightState }

/-- `ip_reference` and `ip_release`. -/
def reference (s : CopyoutState) (port : ℕ) : CopyoutState := s.modifyRights (·.reference port)

@[inherit_doc reference]
def release (s : CopyoutState) (port : ℕ) : CopyoutState := s.modifyRights (·.release port)

/-- Take away a send right, and with the last one the no-senders request. -/
def dropSend (s : CopyoutState) (port : ℕ) : CopyoutState × List CopyoutNotice :=
  let p := s.ports port
  let s' := s.modifyRights (·.modifyPort port fun p => { p with srights := p.srights - 1 })
  if p.srights - 1 = 0 then
    match s.nsrequest port with
    | none => (s', [])
    | some nsrequest =>
      ({ s' with nsrequest := Function.update s.nsrequest port none },
        [.noSenders nsrequest p.mscount])
  else (s', [])

/-- `dest_name`, where the port is alive: its name if the space is the receiver. -/
def destName (s : CopyoutState) (port : ℕ) : ℕ :=
  if s.received port then (s.ports port).receiverName else 0

/-- `ipc_object_copyout_dest`. -/
def copyoutDest (s : CopyoutState) (port : ℕ) (type : SendType) :
    ℕ × CopyoutState × List CopyoutNotice :=
  let name := s.destName port
  let s := s.release port
  match type with
  | .send =>
    let (s, notices) := s.dropSend port
    (name, s, notices)
  | .sendOnce =>
    if s.received port then
      let s := s.modifyRights (·.modifyPort port fun p => { p with sorights := p.sorights - 1 })
      (name, s, [])
    else (name, s.reference port, [.sendOnce port])

/-- `ipc_hash_local_lookup` in the reverse hash tables of the space: an entry of its table. -/
def hashLocalLookup (s : CopyoutState) (object : ℕ) : Option (ℕ × EntryRef) :=
  match s.hash object with
  | none => none
  | some name =>
    match s.space.lookup name with
    | some (.slot index) => some (name, .slot index)
    | _ => none

/-- `ipc_hash_lookup`. -/
def hashLookup (s : CopyoutState) (object : ℕ) : Option (ℕ × EntryRef) :=
  match s.hash object with
  | none => none
  | some name => (s.space.lookup name).map fun ref => (name, ref)

/-- `ipc_right_reverse`. -/
def rightReverse (s : CopyoutState) (port : ℕ) : Option (ℕ × EntryRef) :=
  if (s.ports port).active = false then none
  else if s.received port then
    let name := (s.ports port).receiverName
    (s.space.lookup name).map fun ref => (name, ref)
  else s.hashLookup port

/-- `ipc_right_copyout` of a send or send-once right; it fails if `urefs` would overflow. -/
def rightCopyout (s : CopyoutState) (name : ℕ) (ref : EntryRef) (type : SendType) (overflow : Bool)
    (port : ℕ) : Bool × CopyoutState :=
  let e := s.entry ref
  let bits := e.bits
  let consume (s : CopyoutState) : CopyoutState :=
    s.modifyRights (·.modifyPort port fun p => { p with srights := p.srights - 1 })
  let added (s : CopyoutState) : CopyoutState :=
    s.modifyRights (·.setEntry ref { e with bits := (bits ||| typeSend) + 1 })
  match type with
  | .sendOnce =>
    (true, s.modifyRights (·.setEntry ref { e with bits := bits ||| (typeSendOnce ||| 1#32) }))
  | .send =>
    if bits &&& typeSend ≠ 0 then
      if ieBitsUrefs bits + 1 = machPortUrefsMax then
        if overflow then (true, (consume s).release port) else (false, s)
      else (true, added ((consume s).release port))
    else if bits &&& typeReceive ≠ 0 then (true, added (s.release port))
    else (true, added (s.modifyRights (·.hashInsert port name)))

/-! ## The header -/

/-- The loop that finds or makes an entry for the reply port: none if the port has died. -/
def replyEntry (g : Growth) (type : SendType) (reply : ℕ) :
    ℕ → CopyoutState → Except CopyoutReturn (Option (ℕ × EntryRef)) × CopyoutState
  | 0, s => (.error .unfinished, s)
  | fuel + 1, s =>
    if s.isActive = false then (.error .headerErrorSpace, s)
    else
      match if type = .sendOnce then none else s.rightReverse reply with
      | some found => (.ok (some found), s)
      | none =>
        if (s.ports reply).active = false then (.ok none, s.release reply)
        else
          match s.space.get with
          | (.ok (name, ref), space) =>
            let s := { s with space }
            let e := { s.entry ref with object := reply }
            (.ok (some (name, ref)), s.modifyRights (·.setEntry ref e))
          | (.error _, _) =>
            match s.space.growTable g.sizes g.memory g.growFuel with
            | (.success, space) => replyEntry g type reply fuel { s with space }
            | (.resourceShortage, space) => (.error .headerErrorKernel, { s with space })
            | (_, space) => (.error .headerErrorSpace, { s with space })

/-- The name of a destination that has died: null only if a live reply port died before it. -/
def deadDestName (s : CopyoutState) (dest : ℕ) : IpcObject → ℕ
  | .port reply =>
    if (s.ports reply).active ∨
        RightState.ipTimestampOrder (s.ports dest).timestamp (s.ports reply).timestamp then
      portDead
    else 0
  | _ => portDead

/-- The label `copyout_dest` of the general code, with a reply port that it still holds. -/
def finishCopyout (s : CopyoutState) (m : KernelHeader) (reply : IpcObject) (replyName : ℕ) :
    CopyoutOutcome :=
  let (destName, s, notices) :=
    if (s.ports m.dest).active then s.copyoutDest m.dest m.destType
    else
      let s := s.release m.dest
      (s.deadDestName m.dest reply, s, [])
  let s := s.modifyRights (·.releaseObject reply)
  let replyCode := (m.replyType.map SendType.code).getD 0
  ⟨.success, ⟨msghBitsOther m.other ||| msghBits replyCode m.destType.code, .name replyName,
    .name destName⟩, s, notices⟩

/-- A failure, which leaves the header as it is. -/
def failCopyout (s : CopyoutState) (m : KernelHeader) (result : CopyoutReturn) : CopyoutOutcome :=
  ⟨result, ⟨m.bits, .object (.port m.dest), .object m.reply⟩, s, []⟩

/-- The general code of `ipc_kmsg_copyout_header`, without a notify port. -/
def copyoutHeaderGeneral (s : CopyoutState) (g : Growth) (m : KernelHeader) : CopyoutOutcome :=
  match m.replyType, m.reply with
  | some type, .port reply =>
    match s.replyEntry g type reply (g.fuel + 1) with
    | (.error result, s) => s.failCopyout m result
    | (.ok none, s) => s.finishCopyout m .dead portDead
    | (.ok (some (name, ref)), s) =>
      let s := ((s.reference reply).rightCopyout name ref type true reply).2
      s.finishCopyout m (.port reply) name
  | _, reply =>
    if s.isActive = false then s.failCopyout m .headerErrorSpace
    else s.finishCopyout m reply (if reply = .null then 0 else portDead)

/-- The inlined `ipc_object_copyout_dest` of a send right. -/
def fastDropSend (s : CopyoutState) (dest : ℕ) : ℕ × CopyoutState × List CopyoutNotice :=
  let s := s.release dest
  let destName := s.destName dest
  let (s, notices) := s.dropSend dest
  (destName, s, notices)

/-- The header of a message received by one of the inlined cases. -/
def fastCopyout (m : KernelHeader) (replyCode replyName : ℕ)
    (dest : ℕ × CopyoutState × List CopyoutNotice) : CopyoutOutcome :=
  ⟨.success, ⟨msghBitsOther m.other ||| msghBits replyCode m.destType.code, .name replyName,
    .name dest.1⟩, dest.2.1, dest.2.2⟩

/-- The inlined case of an asynchronous message: a send right and no reply. -/
def copyoutAsync (s : CopyoutState) (m : KernelHeader) : Option CopyoutOutcome :=
  if (s.ports m.dest).active = false then none
  else some (fastCopyout m 0 0 (s.fastDropSend m.dest))

/-- The inlined case of a request: a send right, and a send-once right for the reply.  With simple
locks the case does not apply when both are rights to one port. -/
def copyoutRequest (s : CopyoutState) (simpleLocks : Bool) (m : KernelHeader) :
    Option CopyoutOutcome :=
  match m.reply with
  | .port reply =>
    let index := (s.space.table 0).index
    if s.isActive = false ∨ index = 0 then none
    else if (s.ports m.dest).active = false ∨ (simpleLocks = true ∧ m.dest = reply) then none
    else if (s.ports reply).active = false then none
    else
      -- the inlined `ipc_entry_get` and `ipc_right_copyout`
      let e := s.space.table index
      let space := s.space.setSlot 0 { s.space.table 0 with index := e.index }
      let gen := e.bits + ieBitsGenOne
      let space := space.setSlot index ⟨gen ||| (typeSendOnce ||| 1#32), reply, 0⟩
      some (fastCopyout m 18 (portMake index gen) ({ s with space }.fastDropSend m.dest))
  | _ => none

/-- The inlined case of a reply: a send-once right. -/
def copyoutReply (s : CopyoutState) (m : KernelHeader) : Option CopyoutOutcome :=
  if (s.ports m.dest).active = false then none
  else if s.received m.dest then
    let name := (s.ports m.dest).receiverName
    let s := s.release m.dest
    let s := s.modifyRights (·.modifyPort m.dest fun p => { p with sorights := p.sorights - 1 })
    some (fastCopyout m 0 0 (name, s, []))
  else some (fastCopyout m 0 0 (0, s, [.sendOnce m.dest]))

/-- The inlined cases of `ipc_kmsg_copyout_header`. -/
def copyoutFast (s : CopyoutState) (simpleLocks : Bool) (m : KernelHeader) :
    Option CopyoutOutcome :=
  match m.destType, m.replyType with
  | .send, none => s.copyoutAsync m
  | .send, some .sendOnce => s.copyoutRequest simpleLocks m
  | .sendOnce, none => s.copyoutReply m
  | _, _ => none

/-! ## Objects -/

/-- The loop of `ipc_object_copyout` that finds or makes an entry for the port. -/
def objectEntry (g : Growth) (policy : SpacePolicy) (type : SendType) (port : ℕ) :
    ℕ → CopyoutState → Except ObjectReturn (ℕ × EntryRef) × CopyoutState
  | 0, s => (.error (.kern .unfinished), s)
  | fuel + 1, s =>
    if s.isActive = false then (.error .invalidTask, s)
    else
      match if type = .sendOnce then none else s.rightReverse port with
      | some found => (.ok found, s)
      | none =>
        match s.space.get with
        | (.ok (name, ref), space) =>
          let s := { s with space }
          if (s.ports port).active = false then
            (.error .invalidCapability,
              { s with space := space.dealloc policy.sizes policy.pick name ref })
          else
            let e := { s.entry ref with object := port }
            (.ok (name, ref), s.modifyRights (·.setEntry ref e))
        | (.error _, _) =>
          match s.space.growTable g.sizes g.memory g.growFuel with
          | (.success, space) => objectEntry g policy type port fuel { s with space }
          | (code, space) => (.error (.kern code), { s with space })

/-- `ipc_object_copyout`. -/
def objectCopyout (s : CopyoutState) (g : Growth) (policy : SpacePolicy) (port : ℕ)
    (type : SendType) (overflow : Bool) : Except ObjectReturn ℕ × CopyoutState :=
  match s.objectEntry g policy type port (g.fuel + 1) with
  | (.error result, s) => (.error result, s)
  | (.ok (name, ref), s) =>
    match s.rightCopyout name ref type overflow port with
    | (true, s) => (.ok name, s)
    | (false, s) => (.error .urefsOverflow, s)

/-- `ipc_object_destroy`, and in it `ipc_port_release_send`. -/
def objectDestroy (s : CopyoutState) (port : ℕ) : SendType → CopyoutState × List CopyoutNotice
  | .send =>
    let s := s.release port
    if (s.ports port).active = false then (s, []) else s.dropSend port
  | .sendOnce => (s, [.sendOnce port])

/-- What `ipc_kmsg_copyout_object` leaves behind. -/
structure ObjectOutcome where
  result : CopyoutReturn
  name : ℕ
  state : CopyoutState
  notices : List CopyoutNotice

/-- The label `slow_copyout`. -/
def copyoutObjectGeneral (s : CopyoutState) (g : Growth) (policy : SpacePolicy) (port : ℕ)
    (type : SendType) : ObjectOutcome :=
  match s.objectCopyout g policy port type true with
  | (.ok name, s) => ⟨.success, name, s, []⟩
  | (.error failure, s) =>
    let (s, notices) := s.objectDestroy port type
    match failure with
    | .invalidCapability => ⟨.success, portDead, s, notices⟩
    | .kern .resourceShortage => ⟨.ipcKernel, 0, s, notices⟩
    | _ => ⟨.ipcSpace, 0, s, notices⟩

/-- The quick copyout of a send right that the space already has in its table. -/
def quickCopyout (s : CopyoutState) (port : ℕ) : Option ObjectOutcome :=
  if s.isActive = false ∨ (s.ports port).active = false then none
  else
    match s.hashLocalLookup port with
    | none => none
    | some (name, ref) =>
      let s := s.modifyRights (·.modifyPort port fun p => { p with srights := p.srights - 1 })
      let s := s.release port
      let e := s.entry ref
      let bits := e.bits + 1
      let s :=
        if ieBitsUrefs bits < machPortUrefsMax then
          s.modifyRights (·.setEntry ref { e with bits := bits })
        else s
      some ⟨.success, name, s, []⟩

end CopyoutState

end Darwin.Ipc
