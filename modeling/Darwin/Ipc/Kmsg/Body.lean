import Darwin.Ipc.Mqueue.Receive
import Darwin.Kern.Zalloc.Basic

/-!
# Copying in the body of a message

A model of `ipc_kmsg_copyin_body` and of the cleaning routines it calls, as the kernel is configured
with `MACH_OLD_VM_COPY` and `OLD_VM_CODE`.  Each call that can fail, at each descriptor and each
place of a port array, has its outcome given; the calls that take and release something are
recorded.

## Main definitions

* `cleanBody`, `cleanPartial`: the releases of `ipc_kmsg_clean_body` and `ipc_kmsg_clean_partial`
* `copyinDescriptor`: one turn of the loop over the descriptors
* `copyinBody`: `ipc_kmsg_copyin_body`
-/

namespace Darwin.Ipc.Body

open Darwin.Kern.Zalloc (roundPage sub32)

/-- A 32-bit word: an address, a length, a name or an object. -/
abbrev Word := BitVec 32

/-! ## Messages -/

/-- `MACH_PORT_VALID` and `IO_VALID`: neither null nor dead. -/
def valid (word : Word) : Bool := word ≠ 0#32 ∧ word ≠ 0xffffffff#32

/-- A word of a message or a port array that is a name in a space, or an object. -/
inductive Slot where
  | name (word : Word)
  | object (word : Word)
  deriving DecidableEq, Repr

def Slot.word : Slot → Word
  | name word => word
  | object word => word

/-- `mach_msg_descriptor_t`.  The `count` of a port array is the number of its words, those in
memory from `address` on. -/
inductive Descriptor where
  | port (name : Slot) (disposition : BitVec 8)
  | outOfLine (address size : Word) (deallocate : Bool) (copy : BitVec 8)
  | oolPorts (address : Word) (deallocate : Bool) (disposition : BitVec 8) (objects : List Slot)
  | other (type : BitVec 8)
  deriving DecidableEq, Repr

/-- A message whose header has been copied in, at the address `header`. -/
structure Message where
  header : Word
  bits : Word
  size : Word
  remotePort : Word
  localPort : Word
  descriptorCount : Word
  descriptorAt : Word → Descriptor

def machMsgTypeMoveReceive : BitVec 8 := 16#8
def machMsgTypePortSend : BitVec 8 := 17#8
def machMsgTypePortSendOnce : BitVec 8 := 18#8
def machMsgTypeMakeSendOnce : BitVec 8 := 21#8

/-- `MACH_MSG_TYPE_PORT_ANY`. -/
def portAny (type : BitVec 8) : Bool :=
  machMsgTypeMoveReceive ≤ type ∧ type ≤ machMsgTypeMakeSendOnce

/-- `ipc_object_copyin_type`, on the types of `MACH_MSG_TYPE_PORT_ANY`. -/
def copyinType (type : BitVec 8) : BitVec 8 :=
  if type = machMsgTypeMoveReceive then machMsgTypeMoveReceive
  else if type = machMsgTypePortSendOnce ∨ type = machMsgTypeMakeSendOnce then
    machMsgTypePortSendOnce
  else machMsgTypePortSend

def machMsgPhysicalCopy : BitVec 8 := 0#8
def machMsgVirtualCopy : BitVec 8 := 1#8

def machSendMsgTooSmall : MachMsgReturn := 0x10000008#32
def machSendInvalidRight : MachMsgReturn := 0x1000000a#32
def machSendInvalidMemory : MachMsgReturn := 0x1000000c#32
def machSendNoBuffer : MachMsgReturn := 0x1000000d#32
def machSendInvalidType : MachMsgReturn := 0x1000000f#32

/-! ## What is taken and released -/

/-- The maps in which memory is deallocated. -/
inductive VmMap where
  | user
  | kernelCopy
  | soft
  deriving DecidableEq, Repr

/-- What copyin, copyout and cleaning do, as far as it takes, releases or addresses something. -/
inductive Event where
  | read (descriptor : Word)
  | copiedIn (object : Word) (type : BitVec 8)
  | arrayLength (count : ℕ) (length : Word)
  | index (j : ℕ) (length : Word)
  | kalloc (data length : Word)
  | kfree (data length : Word)
  | vmAllocate (address size : ℕ)
  | vmMove (region size : Word)
  | vmDeallocate (map : VmMap) (address size : ℕ)
  | objectDestroy (object : Slot) (type : BitVec 8)
  | copiedOut (object : Slot) (type : BitVec 8)
  | panic
  deriving DecidableEq, Repr

/-- The outcomes of the calls that can fail.  The number of the descriptor comes first; `right` and
`circular` have the place in the array besides. -/
structure Outcomes where
  vmAllocate : ℕ → Option ℕ
  right : ℕ → ℕ → Option Word
  circular : ℕ → ℕ → Bool
  copyin : ℕ → Bool
  vmMove : ℕ → Option Word
  kalloc : ℕ → Option Word
  copyinmap : ℕ → Bool

/-! ## Cleaning -/

/-- `count * sizeof (mach_port_t)`. -/
def arrayLength (count : ℕ) : Word := BitVec.ofNat 32 (4 * count)

/-- The `ipc_object_destroy` of a valid object. -/
def destroyValid (type : BitVec 8) (object : Slot) : List Event :=
  if valid object.word then [.objectDestroy object type] else []

/-- One descriptor in `ipc_kmsg_clean_body`. -/
def cleanDescriptor : Descriptor → List Event
  | .port name disposition => destroyValid disposition name
  | .outOfLine address size _ _ =>
    if size = 0#32 then [] else [.vmDeallocate .soft address.toNat size.toNat]
  | .oolPorts address _ disposition objects =>
    if objects.length = 0 then []
    else objects.flatMap (destroyValid disposition) ++ [.kfree address (arrayLength objects.length)]
  | .other _ => [.panic]

/-- `ipc_kmsg_clean_body`, on the descriptors it cleans. -/
def cleanBody (descriptors : List Descriptor) : List Event := descriptors.flatMap cleanDescriptor

/-- `MACH_MSGH_BITS_REMOTE`. -/
def remoteType (bits : Word) : BitVec 8 := bits.setWidth 8

/-- `MACH_MSGH_BITS_LOCAL`. -/
def localType (bits : Word) : BitVec 8 := (bits >>> 8).setWidth 8

/-- `ipc_kmsg_clean_partial`. -/
def cleanPartial (m : Message) (descriptors : List Descriptor) (paddr length : ℕ) : List Event :=
  [.objectDestroy (.object m.remotePort) (remoteType m.bits)] ++
    destroyValid (localType m.bits) (.object m.localPort) ++
    (if paddr ≠ 0 then [.vmDeallocate .kernelCopy paddr length] else []) ++ cleanBody descriptors

/-! ## The copyin -/

/-- The state of the loop over the descriptors: those already rewritten, what is left of the area
for physical copies, and the record. -/
structure Copied where
  done : List Descriptor
  paddr : ℕ
  spaceNeeded : ℕ
  complex : Bool
  circular : Bool
  history : List Event

/-- The loop that undoes a port array when there is no right for `port`. -/
def unwind (port : Word) (type : BitVec 8) (copied : List Slot) : List Event :=
  copied.flatMap fun object =>
    -- the test is on the current port, not on the object
    if ¬ valid port then [] else [.objectDestroy object type]

/-- The loop over the `length` bytes of a port array, from the objects already copied in. -/
def copyinObjects (o : Outcomes) (i : ℕ) (name : BitVec 8) (length : Word) (copied : List Slot)
    (circular : Bool) (history : List Event) :
    List Slot → Except (List Event) (List Slot × Bool × List Event)
  | [] => .ok (copied, circular, history)
  | port :: rest =>
    let history := history ++ [.index copied.length length]
    if ¬ valid port.word then
      copyinObjects o i name length (copied ++ [port]) circular history rest
    else
      match o.right i copied.length with
      | none => .error (history ++ unwind port.word (copyinType name) copied)
      | some object =>
        copyinObjects o i name length (copied ++ [.object object])
          (circular || copyinType name == machMsgTypeMoveReceive && o.circular i copied.length)
          (history ++ [.copiedIn object (copyinType name)]) rest

/-- One descriptor in the second pass.  A failure has its code, and the record before
`ipc_kmsg_clean_partial` is called. -/
def copyinDescriptor (o : Outcomes) (page i : ℕ) (st : Copied) :
    Descriptor → Except (MachMsgReturn × List Event) Copied
  | .port name disposition =>
    if ¬ portAny disposition then .error (machSendInvalidType, st.history)
    else if ¬ valid name.word then
      .ok { st with done := st.done ++ [.port name (copyinType disposition)], complex := true }
    else
      match o.right i 0 with
      | none => .error (machSendInvalidRight, st.history)
      | some object =>
        .ok { st with
          done := st.done ++ [.port (.object object) (copyinType disposition)]
          complex := true
          circular := st.circular ||
            copyinType disposition == machMsgTypeMoveReceive && o.circular i 0
          history := st.history ++ [.copiedIn object (copyinType disposition)] }
  | .outOfLine address size deallocate copy =>
    if size = 0#32 then
      .ok { st with done := st.done ++ [.outOfLine 0#32 size deallocate copy], complex := true }
    else if copy = machMsgPhysicalCopy ∧ deallocate = false then
      if ¬ o.copyin i then .error (machSendInvalidMemory, st.history)
      else
        match o.vmMove i with
        | none => .error (machMsgVmKernel, st.history)
        | some region =>
          .ok { st with
            done := st.done ++ [.outOfLine region size deallocate copy]
            paddr := (st.paddr + roundPage page size.toNat) % 2 ^ 32
            spaceNeeded := sub32 st.spaceNeeded (roundPage page size.toNat)
            complex := true
            history := st.history ++
              [.vmMove region size, .vmDeallocate .kernelCopy st.paddr size.toNat] }
    else
      match o.vmMove i with
      | none => .error (machSendInvalidMemory, st.history)
      | some region =>
        .ok { st with
          done := st.done ++ [.outOfLine region size deallocate copy]
          complex := true
          history := st.history ++ [.vmMove region size] ++
            if deallocate then [.vmDeallocate .user address.toNat size.toNat] else [] }
  | .oolPorts address deallocate disposition objects =>
    let length := arrayLength objects.length
    let history := st.history ++ [.arrayLength objects.length length]
    if length = 0#32 then
      .ok { st with
        done := st.done ++ [.oolPorts 0#32 deallocate disposition objects]
        complex := true
        history := history }
    else
      match o.kalloc i with
      | none => .error (machSendNoBuffer, history)
      | some data =>
        let history := history ++ [.kalloc data length]
        if ¬ o.copyinmap i then .error (machSendInvalidMemory, history ++ [.kfree data length])
        else if ¬ portAny disposition then
          .error (machSendInvalidType, history ++ [.kfree data length])
        else
          let history := history ++
            if deallocate then [.vmDeallocate .user address.toNat length.toNat] else []
          match copyinObjects o i disposition length [] st.circular history objects with
          | .error history => .error (machSendInvalidRight, history ++ [.kfree data length])
          | .ok (copied, circular, history) =>
            .ok { st with
              done := st.done ++ [.oolPorts data deallocate (copyinType disposition) copied]
              complex := true
              circular := circular
              history := history }
  | .other _ => .error (machSendInvalidType, st.history)

/-- What `ipc_kmsg_copyin_body` returns, the descriptors it has rewritten and the record. -/
structure BodyOutcome where
  code : MachMsgReturn
  descriptors : List Descriptor
  bits : Word
  history : List Event

def machMsghBitsCircular : Word := 0x40000000#32

/-- The header bits after a success. -/
def bitsAfter (bits : Word) (complex circular : Bool) : Word :=
  let bits := if circular then bits ||| machMsghBitsCircular else bits
  if complex then bits else bits &&& ~~~machMsghBitsComplex

/-- The second pass over the descriptors. -/
def copyinDescriptors (o : Outcomes) (page : ℕ) (m : Message) (st : Copied) :
    List (Word × Descriptor) → BodyOutcome
  | [] => ⟨machMsgSuccess, st.done, bitsAfter m.bits st.complex st.circular, st.history⟩
  | (address, d) :: rest =>
    let st := { st with history := st.history ++ [.read address] }
    match copyinDescriptor o page st.done.length st d with
    | .error (code, history) =>
      ⟨code, st.done, m.bits, history ++ cleanPartial m st.done st.paddr st.spaceNeeded⟩
    | .ok st => copyinDescriptors o page m st rest

/-- The first pass: the space that the physical copies need, unless a copy option is invalid. -/
def spaceNeeded (page : ℕ) (needed : ℕ) (history : List Event) :
    List (Word × Descriptor) → Except (List Event) (ℕ × List Event)
  | [] => .ok (needed, history)
  | (address, .outOfLine _ size deallocate copy) :: rest =>
    let history := history ++ [.read address]
    if copy ≠ machMsgPhysicalCopy ∧ copy ≠ machMsgVirtualCopy then .error history
    else if copy = machMsgPhysicalCopy ∧ deallocate = false then
      spaceNeeded page ((needed + roundPage page size.toNat) % 2 ^ 32) history rest
    else spaceNeeded page needed history rest
  | (address, _) :: rest => spaceNeeded page needed (history ++ [.read address]) rest

namespace Message

/-- The address of the first descriptor. -/
def saddr (m : Message) : Word := m.header + 28#32

/-- The end of the descriptors. -/
def eaddr (m : Message) : Word := m.saddr + 12#32 * m.descriptorCount

/-- The descriptors do not pass the test against the size, which is added to a pointer to headers of
24 bytes. -/
def tooSmall (m : Message) : Prop :=
  m.eaddr ≤ m.saddr ∨ m.header + 24#32 * m.size < m.eaddr

instance (m : Message) : Decidable m.tooSmall := inferInstanceAs (Decidable (_ ∨ _))

/-- The descriptors of a loop from `start` to `stop`. -/
def descriptorsFrom (m : Message) (stop : Word) : ℕ → Word → List (Word × Descriptor)
  | 0, _ => []
  | fuel + 1, start =>
    if start < stop then
      (start, m.descriptorAt start) :: m.descriptorsFrom stop fuel (start + 12#32)
    else []

/-- The descriptors that both passes go over.  As many steps as the count lead to `eaddr`. -/
def descriptors (m : Message) : List (Word × Descriptor) :=
  m.descriptorsFrom m.eaddr m.descriptorCount.toNat m.saddr

end Message

/-- `ipc_kmsg_copyin_body`. -/
def copyinBody (o : Outcomes) (page : ℕ) (m : Message) : BodyOutcome :=
  if m.tooSmall then ⟨machSendMsgTooSmall, [], m.bits, cleanPartial m [] 0 0⟩
  else
    match spaceNeeded page 0 [] m.descriptors with
    | .error history => ⟨machSendInvalidType, [], m.bits, history ++ cleanPartial m [] 0 0⟩
    | .ok (needed, history) =>
      if needed > 0 then
        match o.vmAllocate needed with
        | none => ⟨machMsgVmKernel, [], m.bits, history ++ cleanPartial m [] 0 0⟩
        | some paddr =>
          copyinDescriptors o page m
            ⟨[], paddr, needed, false, false, history ++ [.vmAllocate paddr needed]⟩
            m.descriptors
      else copyinDescriptors o page m ⟨[], 0, 0, false, false, history⟩ m.descriptors

end Darwin.Ipc.Body
