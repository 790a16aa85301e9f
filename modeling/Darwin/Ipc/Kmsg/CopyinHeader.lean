import Darwin.Ipc.Right.Basic

/-!
# Copying in the header of a message

A model of `ipc_kmsg_copyin_header`: the three cases it inlines, and the general code that takes the
destination and reply rights out of the space.

## Main definitions

* `copyinAsync`, `copyinRequest`, `copyinReply`: the inlined cases
* `copyinHeaderGeneral`: the code they fall through to
* `copyinHeader`: `ipc_kmsg_copyin_header`
-/

namespace Darwin.Ipc

namespace MsgType

/-- The number of a type in a message header. -/
def code : MsgType → ℕ
  | moveReceive => 16
  | moveSend => 17
  | moveSendOnce => 18
  | copySend => 19
  | makeSend => 20
  | makeSendOnce => 21

/-- `MACH_MSG_TYPE_PORT_ANY_SEND`, and which type it is. -/
def anySend? : ℕ → Option MsgType
  | 17 => some moveSend
  | 18 => some moveSendOnce
  | 19 => some copySend
  | 20 => some makeSend
  | 21 => some makeSendOnce
  | _ => none

/-- `ipc_object_copyin_type`. -/
def copyinType : MsgType → MsgType
  | moveReceive => moveReceive
  | moveSendOnce | makeSendOnce => moveSendOnce
  | moveSend | makeSend | copySend => moveSend

end MsgType

/-! ## Message headers -/

/-- A port field of a header: a name in the sender's space, or an object once copied in. -/
inductive PortField where
  | name (name : ℕ)
  | object (object : IpcObject)
  deriving DecidableEq, Repr

/-- The fields of a `mach_msg_header_t` that the copyin reads and writes. -/
structure MsgHeader where
  bits : BitVec 32
  remotePort : PortField
  localPort : PortField
  deriving DecidableEq

def msghBitsRemoteMask : BitVec 32 := 0x000000ff#32
def msghBitsLocalMask : BitVec 32 := 0x0000ff00#32
def msghBitsPortsMask : BitVec 32 := 0x0000ffff#32
def msghBitsCircular : BitVec 32 := 0x40000000#32
def msghBitsOldFormat : BitVec 32 := 0x08000000#32

/-- `MACH_MSGH_BITS`. -/
def msghBits (remote local' : ℕ) : BitVec 32 :=
  BitVec.ofNat 32 remote ||| BitVec.ofNat 32 local' <<< 8

/-- `MACH_MSGH_BITS_REMOTE`. -/
def msghBitsRemote (bits : BitVec 32) : ℕ := (bits &&& msghBitsRemoteMask).toNat

/-- `MACH_MSGH_BITS_LOCAL`. -/
def msghBitsLocal (bits : BitVec 32) : ℕ := ((bits &&& msghBitsLocalMask) >>> 8).toNat

/-- `MACH_MSGH_BITS_OTHER`. -/
def msghBitsOther (bits : BitVec 32) : BitVec 32 := bits &&& ~~~msghBitsPortsMask

/-- The result codes of `ipc_kmsg_copyin_header`, and the failure of an assertion. -/
inductive HeaderReturn where
  | success
  | sendInvalidHeader
  | sendInvalidDest
  | sendInvalidNotify
  | sendInvalidReply
  | assertion
  deriving DecidableEq, Repr

/-- The notifications a copyin sends, with the send-once right each uses and the name it tells. -/
inductive Notification where
  | portDeleted (soright name : ℕ)
  | deadName (soright name : ℕ)
  deriving DecidableEq, Repr

/-- What `ipc_kmsg_copyin_header` leaves behind.  `guarded` records the copyin of the reply right
that `ipc_right_copyin_check` allowed, if there was one: whether it succeeded. -/
structure HeaderOutcome where
  result : HeaderReturn
  header : MsgHeader
  state : RightState
  notifications : List Notification
  guarded : Option Bool

/-- The rights copied in, with the send-once rights for their port-deleted notifications. -/
structure CopiedPorts where
  dest : IpcObject
  reply : IpcObject
  destSoright : Option ℕ
  replySoright : Option ℕ

/-- The outcome of one of the three cases of the general code. -/
structure PortsOutcome where
  ports : Except HeaderReturn CopiedPorts
  state : RightState
  notifications : List Notification
  guarded : Option Bool

/-- The notification due for a send-once right, if it is there. -/
def noticeOf (kind : ℕ → ℕ → Notification) (soright : Option ℕ) (name : ℕ) : List Notification :=
  match soright with
  | none => []
  | some right => [kind right name]

/-- `MACH_PORT_VALID` for the object a name stands for when there is no right: null or dead. -/
def objectOfInvalid (name : ℕ) : IpcObject := if name = 0 then .null else .dead

namespace RightState

/-- `ipc_entry_dealloc` of an entry that has lost its right. -/
def deallocNone (s : RightState) (policy : SpacePolicy) (name : ℕ) (ref : EntryRef) : RightState :=
  if ieBitsType (s.entry ref).bits = 0 then
    { s with space := s.space.dealloc policy.sizes policy.pick name ref }
  else s

/-- `ipc_port_copy_send`. -/
def portCopySend (s : RightState) : IpcObject → IpcObject × RightState
  | .port port =>
    if (s.ports port).active then
      (.port port, s.modifyPort port fun p =>
        { p with references := p.references + 1, srights := p.srights + 1 })
    else (.dead, s)
  | object => (object, s)

/-- `ipc_port_release_sonce`. -/
def releaseSonce (s : RightState) (port : ℕ) : RightState :=
  s.modifyPort port fun p => { p with sorights := p.sorights - 1, references := p.references - 1 }

/-! ## The general code -/

/-- A failure that leaves the state as it is. -/
def refuse (s : RightState) (result : HeaderReturn) : PortsOutcome := ⟨.error result, s, [], none⟩

/-- The copyin where destination and reply have one name and one of them is made from a receive
right. -/
def copyinMade (s : RightState) (policy : SpacePolicy) (name : ℕ) (ref : EntryRef)
    (destType replyType : MsgType) : PortsOutcome :=
  match s.rightCopyin policy name ref destType false with
  | (.error _, s) => s.refuse .sendInvalidDest
  | (.ok (dest, destSoright), s) =>
    match s.rightCopyin policy name ref replyType true with
    | (.error _, s) => ⟨.error .assertion, s, [], some false⟩
    | (.ok (reply, replySoright), s) =>
      ⟨.ok ⟨dest, reply, destSoright, replySoright⟩, s, [], some true⟩

/-- The copyin where destination and reply have one name. -/
def copyinSame (s : RightState) (policy : SpacePolicy) (name : ℕ) (destType : MsgType)
    (replyType : Option MsgType) : PortsOutcome :=
  match s.space.lookup name, replyType with
  | none, _ => s.refuse .sendInvalidDest
  | some _, none => s.refuse .assertion
  | some ref, some replyType =>
    if s.rightCopyinCheck ref replyType = false then s.refuse .sendInvalidReply
    else if destType = .moveSendOnce ∨ replyType = .moveSendOnce then s.refuse .sendInvalidDest
    else if destType = .makeSend ∨ destType = .makeSendOnce ∨ replyType = .makeSend ∨
        replyType = .makeSendOnce then
      s.copyinMade policy name ref destType replyType
    else if destType = .copySend ∧ replyType = .copySend then
      match s.rightCopyin policy name ref destType false with
      | (.error _, s) => s.refuse .sendInvalidDest
      | (.ok (dest, destSoright), s) =>
        let (reply, s) := s.portCopySend dest
        ⟨.ok ⟨dest, reply, destSoright, none⟩, s, [], none⟩
    else if destType = .moveSend ∧ replyType = .moveSend then
      match s.rightCopyinTwo policy name ref with
      | (.error _, s) => s.refuse .sendInvalidDest
      | (.ok (dest, destSoright), s) =>
        ⟨.ok ⟨dest, dest, destSoright, none⟩, s.deallocNone policy name ref, [], none⟩
    else
      match s.rightCopyin policy name ref .moveSend false with
      | (.error _, s) => s.refuse .sendInvalidDest
      | (.ok (dest, soright), s) =>
        let (reply, s) := (s.deallocNone policy name ref).portCopySend dest
        if destType = .moveSend then ⟨.ok ⟨dest, reply, soright, none⟩, s, [], none⟩
        else ⟨.ok ⟨dest, reply, none, soright⟩, s, [], none⟩

/-- The copyin without a reply right. -/
def copyinAlone (s : RightState) (policy : SpacePolicy) (destName replyName : ℕ)
    (destType : MsgType) : PortsOutcome :=
  match s.space.lookup destName with
  | none => s.refuse .sendInvalidDest
  | some ref =>
    match s.rightCopyin policy destName ref destType false with
    | (.error _, s) => s.refuse .sendInvalidDest
    | (.ok (dest, destSoright), s) =>
      ⟨.ok ⟨dest, objectOfInvalid replyName, destSoright, none⟩,
        s.deallocNone policy destName ref, [], none⟩

/-- `IP_TIMESTAMP_ORDER`. -/
def ipTimestampOrder (one two : BitVec 32) : Bool := (one - two).toInt < 0

/-- Whether the reply port was dead at its copyin and the destination died before it.  The reply
port is the one the entry held before. -/
def mustUndo (s : RightState) (savedReply : ℕ) (dest reply : IpcObject) : Bool :=
  match dest with
  | .port dest =>
    savedReply ≠ 0 ∧ reply = .dead ∧ (s.ports dest).active = false ∧
      ipTimestampOrder (s.ports dest).timestamp (s.ports savedReply).timestamp
  | _ => false

/-- The copyin of two rights with different names. -/
def copyinBoth (s : RightState) (policy : SpacePolicy) (destName replyName : ℕ)
    (destType : MsgType) (replyType : Option MsgType) : PortsOutcome :=
  match s.space.lookup destName, s.space.lookup replyName, replyType with
  | none, _, _ => s.refuse .sendInvalidDest
  | some _, none, _ => s.refuse .sendInvalidReply
  | some _, some _, none => s.refuse .assertion
  | some destRef, some replyRef, some replyType =>
    if s.rightCopyinCheck replyRef replyType = false then s.refuse .sendInvalidReply
    else
      match s.rightCopyin policy destName destRef destType false with
      | (.error _, s) => s.refuse .sendInvalidDest
      | (.ok (dest, destSoright), s) =>
        let savedReply := (s.entry replyRef).object
        let s := if savedReply ≠ 0 then s.reference savedReply else s
        match s.rightCopyin policy replyName replyRef replyType true with
        | (.error _, s) =>
          -- a compat entry whose port died after the check: its entry is gone
          let s := s.deallocNone policy destName destRef
          let s := if savedReply ≠ 0 then s.release savedReply else s
          ⟨.ok ⟨dest, .dead, destSoright, none⟩, s, [], some false⟩
        | (.ok (reply, replySoright), s) =>
          if s.mustUndo savedReply dest reply then
            let s := s.rightCopyinUndo policy destName destRef destType dest destSoright
            let s := s.rightCopyinUndo policy replyName replyRef replyType reply replySoright
            ⟨.error .sendInvalidDest, s.release savedReply,
              noticeOf .deadName destSoright destName, some true⟩
          else
            let s := s.deallocNone policy replyName replyRef
            let s := s.deallocNone policy destName destRef
            let s := if savedReply ≠ 0 then s.release savedReply else s
            ⟨.ok ⟨dest, reply, destSoright, replySoright⟩, s, [], some true⟩

/-- The receive right that the notify argument names: `none` if there is no argument. -/
def notifyPort (s : RightState) (notify : ℕ) : Except HeaderReturn (Option ℕ) :=
  if notify = 0 then .ok none
  else
    match s.space.lookup notify with
    | none => .error .sendInvalidNotify
    | some ref =>
      if (s.entry ref).bits &&& typeReceive = 0 then .error .sendInvalidNotify
      else .ok (some (s.entry ref).object)

/-- Whether the reply type is none although a reply is named, or not the type of a send right. -/
def invalidReplyType (mbits : BitVec 32) (replyName : ℕ) : Bool :=
  if msghBitsLocal mbits = 0 then replyName ≠ 0
  else (MsgType.anySend? (msghBitsLocal mbits)).isNone

/-- The three cases of the general code: one name, no reply right, two names. -/
def copyinPorts (s : RightState) (policy : SpacePolicy) (destName replyName : ℕ)
    (destType : MsgType) (replyType : Option MsgType) : PortsOutcome :=
  if destName = replyName then s.copyinSame policy destName destType replyType
  else if replyName = 0 ∨ replyName = portDead then
    s.copyinAlone policy destName replyName destType
  else s.copyinBoth policy destName replyName destType replyType

/-- The end of the general code: the `MACH_SEND_CANCEL` check, the notifications and the header. -/
def finishHeader (mbits : BitVec 32) (destName replyName : ℕ) (notify : Option ℕ)
    (destType : MsgType) (replyType : Option MsgType) (ports : CopiedPorts)
    (outcome : PortsOutcome) : HeaderOutcome :=
  let cancelled := notify.isSome ∧ ports.destSoright = notify
  let state :=
    match notify with
    | some port => if cancelled then outcome.state.releaseSonce port else outcome.state
    | none => outcome.state
  let destSoright := if cancelled then none else ports.destSoright
  { result := .success
    header :=
      { bits := msghBitsOther mbits ||| msghBits destType.copyinType.code
          ((replyType.map fun type => type.copyinType.code).getD 0)
        remotePort := .object ports.dest
        localPort := .object ports.reply }
    state
    notifications := outcome.notifications ++ noticeOf .portDeleted destSoright destName ++
      noticeOf .portDeleted ports.replySoright replyName
    guarded := outcome.guarded }

/-- The general code of `ipc_kmsg_copyin_header`. -/
def copyinHeaderGeneral (s : RightState) (policy : SpacePolicy) (header : MsgHeader)
    (mbits : BitVec 32) (destName replyName notify : ℕ) : HeaderOutcome :=
  let failed (result : HeaderReturn) : HeaderOutcome := ⟨result, header, s, [], none⟩
  let replyType := MsgType.anySend? (msghBitsLocal mbits)
  match MsgType.anySend? (msghBitsRemote mbits) with
  | none => failed .sendInvalidHeader
  | some destType =>
    if invalidReplyType mbits replyName then failed .sendInvalidHeader
    else if s.isActive = false then failed .sendInvalidDest
    else
      match s.notifyPort notify with
      | .error result => failed result
      | .ok notify =>
        let outcome := s.copyinPorts policy destName replyName destType replyType
        match outcome.ports with
        | .error result =>
          ⟨result, header, outcome.state, outcome.notifications, outcome.guarded⟩
        | .ok ports =>
          finishHeader mbits destName replyName notify destType replyType ports outcome

/-! ## The inlined cases -/

/-- The inlined `ipc_entry_lookup`: the table slot of a name whose entry has its generation and, of
the other bits in `mask`, those in `wanted`. -/
def fastLookup (s : RightState) (name : ℕ) (mask wanted : BitVec 32) : Option ℕ :=
  let index := portIndex name
  if s.space.tableSize ≤ index then none
  else if (s.space.table index).bits &&& (ieBitsGenMask ||| mask) ≠ portGen name ||| wanted then none
  else some index

/-- The header of a message sent by one of the inlined cases. -/
def fastOutcome (s : RightState) (mbits : BitVec 32) (destType replyType : ℕ) (dest : IpcObject)
    (reply : PortField) : HeaderOutcome :=
  ⟨.success, ⟨msghBitsOther mbits ||| msghBits destType replyType, .object dest, reply⟩, s,
    [], none⟩

/-- The inlined case of an asynchronous message: a copied send right and no reply. -/
def copyinAsync (s : RightState) (header : MsgHeader) (mbits : BitVec 32)
    (destName replyName : ℕ) : Option HeaderOutcome :=
  if replyName ≠ 0 ∨ s.isActive = false then none
  else
    match s.fastLookup destName typeSend typeSend with
    | none => none
    | some index =>
      let dest := (s.space.table index).object
      if (s.ports dest).active = false then none
      else
        let s := s.modifyPort dest fun p =>
          { p with srights := p.srights + 1, references := p.references + 1 }
        some (s.fastOutcome mbits 17 0 (.port dest) header.localPort)

/-- The inlined case of a request: a copied send right, and a send-once right made for the reply.
With simple locks the case does not apply when both are rights to one port. -/
def copyinRequest (s : RightState) (simpleLocks : Bool) (mbits : BitVec 32)
    (destName replyName : ℕ) : Option HeaderOutcome :=
  if s.isActive = false then none
  else
    match s.fastLookup destName typeSend typeSend, s.fastLookup replyName typeReceive typeReceive with
    | some destIndex, some replyIndex =>
      let dest := (s.space.table destIndex).object
      let reply := (s.space.table replyIndex).object
      if (s.ports dest).active = false ∨ (simpleLocks = true ∧ dest = reply) then none
      else
        let s := s.modifyPort dest fun p =>
          { p with srights := p.srights + 1, references := p.references + 1 }
        let s := s.modifyPort reply fun p =>
          { p with sorights := p.sorights + 1, references := p.references + 1 }
        some (s.fastOutcome mbits 17 18 (.port dest) (.object (.port reply)))
    | _, _ => none

/-- The inlined case of a reply: a moved send-once right without a dead-name request. -/
def copyinReply (s : RightState) (header : MsgHeader) (mbits : BitVec 32)
    (destName replyName : ℕ) : Option HeaderOutcome :=
  if replyName ≠ 0 ∨ s.isActive = false then none
  else
    match s.fastLookup destName (ieBitsCollision ||| typeSendOnce) typeSendOnce with
    | none => none
    | some index =>
      let e := s.space.table index
      if e.index ≠ 0 ∨ (s.ports e.object).active = false then none
      else
        -- the inlined `ipc_entry_dealloc`
        let space := s.space.setSlot index ⟨portGen destName, 0, (s.space.table 0).index⟩
        let space := space.setSlot 0 { space.table 0 with index := index }
        some ({ s with space }.fastOutcome mbits 18 0 (.port e.object) header.localPort)

/-- `ipc_kmsg_copyin_header` on a header as the sender wrote it. -/
def copyinHeader (s : RightState) (policy : SpacePolicy) (simpleLocks : Bool) (bits : BitVec 32)
    (destName replyName notify : ℕ) : HeaderOutcome :=
  let header : MsgHeader := ⟨bits, .name destName, .name replyName⟩
  let mbits := header.bits &&& ~~~(msghBitsCircular ||| msghBitsOldFormat)
  let ports := mbits &&& msghBitsPortsMask
  let fast :=
    if notify ≠ 0 then none
    else if ports = msghBits 19 0 then s.copyinAsync header mbits destName replyName
    else if ports = msghBits 19 21 then s.copyinRequest simpleLocks mbits destName replyName
    else if ports = msghBits 18 0 then s.copyinReply header mbits destName replyName
    else none
  match fast with
  | some outcome => outcome
  | none => s.copyinHeaderGeneral policy header mbits destName replyName notify

end RightState

end Darwin.Ipc
