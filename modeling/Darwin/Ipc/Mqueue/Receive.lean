import Mathlib.Data.BitVec

/-!
# Handing messages to receivers

A model of the part of `ipc_mqueue.c` that decides whether a receiver gets a message.  A message
that is already queued is examined by `ipc_mqueue_receive` itself.  A receiver that finds no message
sleeps; later `ipc_mqueue_send` (or `ipc_mqueue_move`) examines the message on its behalf, leaves
the verdict in `ith_state`, and the resumed receiver decodes it.  `ipc_kmsg_check_scatter` compares
the descriptors of a message with the scatter list of a receiver.
-/

namespace Darwin.Ipc

/-! ## Return codes and options -/

/-- `mach_msg_return_t`. -/
abbrev MachMsgReturn := BitVec 32

def machMsgSuccess : MachMsgReturn := 0x00000000#32
def machMsgVmKernel : MachMsgReturn := 0x00000400#32
def machRcvInProgress : MachMsgReturn := 0x10004001#32
def machRcvTooLarge : MachMsgReturn := 0x10004004#32
def machRcvInterrupted : MachMsgReturn := 0x10004005#32
def machRcvPortChanged : MachMsgReturn := 0x10004006#32
def machRcvPortDied : MachMsgReturn := 0x10004009#32
def machRcvHeaderError : MachMsgReturn := 0x1000400b#32
def machRcvBodyError : MachMsgReturn := 0x1000400c#32
def machRcvInvalidType : MachMsgReturn := 0x1000400d#32
def machRcvScatterSmall : MachMsgReturn := 0x1000400e#32

def machRcvLarge : BitVec 32 := 0x00000800#32
def machRcvOldFormat : BitVec 32 := 0x00008000#32

def machMsghBitsComplex : BitVec 32 := 0x80000000#32
def machMsghBitsOldFormat : BitVec 32 := 0x08000000#32

/-- A flag of an option or bits word is set. -/
def hasFlag (word flag : BitVec 32) : Bool := word &&& flag != 0#32

/-- `sizeof (mach_msg_header_t)`. -/
def headerSize : BitVec 32 := 24#32

/-- `trailer_size[]`.  The table has three entries; `beyond` is the memory after it, which an option
word can select too. -/
def trailerSize (beyond : ℕ → BitVec 32) : ℕ → BitVec 32
  | 0 => 8#32
  | 1 => 12#32
  | 2 => 20#32
  | elements => beyond elements

/-- `REQUESTED_TRAILER_SIZE`. -/
def requestedTrailerSize (beyond : ℕ → BitVec 32) (option : BitVec 32) : BitVec 32 :=
  trailerSize beyond ((option >>> 24) &&& 0xf#32).toNat

/-! ## Messages -/

def machMsgPortDescriptor : BitVec 8 := 0#8
def machMsgOolDescriptor : BitVec 8 := 1#8
def machMsgOolPortsDescriptor : BitVec 8 := 2#8

def machMsgOverwrite : BitVec 8 := 3#8

/-- A descriptor of a message body.  `size` is the size of an out-of-line region or the count of
out-of-line ports, which share their place. -/
structure Descriptor where
  type : BitVec 8
  copy : BitVec 8
  size : BitVec 32
  deriving DecidableEq, Repr

/-- The parts of a message that decide its delivery. -/
structure Kmsg where
  bits : BitVec 32
  size : BitVec 32
  descriptors : List Descriptor
  deriving DecidableEq, Repr

/-- `MACH_MSGH_BITS_OLD_FORMAT` is set. -/
def Kmsg.oldFormat (kmsg : Kmsg) : Bool := hasFlag kmsg.bits machMsghBitsOldFormat

/-- `MACH_MSGH_BITS_COMPLEX` is set. -/
def Kmsg.complex (kmsg : Kmsg) : Bool := hasFlag kmsg.bits machMsghBitsComplex

/-- What the receive code depends on besides its arguments: the memory after `trailer_size`, and
`ikm_alloc`, which fails or returns a block with some old contents. -/
structure Kernel where
  beyondTrailers : ℕ → BitVec 32
  ikmAlloc : BitVec 32 → Option (ℕ → Descriptor)

/-! ## `ipc_kmsg_check_scatter` -/

/-- The loop of `ipc_kmsg_check_scatter` over the gather list.  `empty` says that the scatter list
has no descriptors at all; the result is `size_error`, or the code returned from inside the loop. -/
def scatterLoop (large empty : Bool) :
    List Descriptor → List Descriptor → Bool → Except MachMsgReturn Bool
  | [], _, sizeError => .ok sizeError
  | gather :: gs, ss, sizeError =>
    if gather.type = machMsgPortDescriptor then
      scatterLoop large empty gs ss sizeError
    else if empty then
      if large then .ok true else .error machRcvScatterSmall
    else
      -- skip port descriptors in the scatter list
      match ss.dropWhile (fun d => d.type = machMsgPortDescriptor) with
      | [] => .ok sizeError
      | scatter :: rest =>
        if gather.type = machMsgOolDescriptor then
          if scatter.type ≠ machMsgOolDescriptor then
            .error machRcvInvalidType
          else if scatter.copy = machMsgOverwrite ∧ gather.size > scatter.size then
            if large then scatterLoop large empty gs rest true else .error machRcvScatterSmall
          else
            scatterLoop large empty gs rest sizeError
        else
          if scatter.type ≠ machMsgOolPortsDescriptor then
            .error machRcvInvalidType
          else if scatter.copy = machMsgOverwrite ∧ gather.size > scatter.size then
            if large then scatterLoop large empty gs rest true else .error machRcvScatterSmall
          else
            scatterLoop large empty gs rest sizeError

example (ss : List Descriptor) : scatterLoop true false [] ss true = .ok true := by
  rw [scatterLoop]

/-- A descriptor of the new scatter list: only the type and, for out-of-line data, the size are
written, over whatever the allocated memory held. -/
def fillScatter (old gather : Descriptor) : Descriptor :=
  if gather.type = machMsgOolDescriptor ∨ gather.type = machMsgOolPortsDescriptor then
    { old with type := gather.type, size := gather.size }
  else
    { old with type := gather.type }

/-- The bytes of a new scatter list for a message: the body and its descriptors. -/
def newListSize (kmsg : Kmsg) : BitVec 32 := BitVec.ofNat 32 (4 + 12 * kmsg.descriptors.length)

/-- `ipc_kmsg_check_scatter`: the code and the scatter list afterwards. -/
def checkScatter (k : Kernel) (kmsg : Kmsg) (option : BitVec 32) (list : List Descriptor) :
    MachMsgReturn × List Descriptor :=
  match scatterLoop (hasFlag option machRcvLarge) list.isEmpty kmsg.descriptors list false with
  | .error code => (code, list)
  | .ok false => (machMsgSuccess, list)
  | .ok true =>
    match k.ikmAlloc (newListSize kmsg) with
    | none => (machMsgVmKernel ||| machRcvBodyError, list)
    | some old => (machRcvScatterSmall, kmsg.descriptors.mapIdx fun i d => fillScatter (old i) d)

/-! ## Receiving -/

/-- The arguments of `ipc_mqueue_receive` that a message is checked against; `list` is `none` for
`IKM_NULL`. -/
structure ReceiveCall where
  option : BitVec 32
  maxSize : BitVec 32
  list : Option (List Descriptor)
  deriving DecidableEq, Repr

/-- The fields of a thread that waits for a message. -/
structure Receiver where
  state : MachMsgReturn
  rcvOption : BitVec 32
  msize : BitVec 32
  list : Option (List Descriptor)
  kmsg : Kmsg
  seqno : ℕ
  deriving DecidableEq, Repr

/-- A message queue, with the `ip_seqno` of the port its messages are sent to. -/
structure Mqueue where
  messages : List Kmsg
  threads : List Receiver
  seqno : ℕ
  deriving DecidableEq, Repr

/-- What a receive returns. -/
inductive ReceiveResult where
  /-- A return code together with a message and its sequence number. -/
  | message (code : MachMsgReturn) (kmsg : Kmsg) (seqno : ℕ)
  /-- A return code; the size of the message is stored through `kmsgp`. -/
  | size (code : MachMsgReturn) (size : BitVec 32)
  /-- A return code and nothing else. -/
  | code (code : MachMsgReturn)
  /-- The timeout expired: the loop starts again with a timeout of zero. -/
  | retry
  | panic
  deriving DecidableEq, Repr

/-- What `ipc_mqueue_receive` does with a queued message: its `ith_state`, the scatter list, and
whether the message is dequeued or the receive returns without it. -/
inductive Examined where
  | dequeue (state : MachMsgReturn)
  | reportSize (state : MachMsgReturn)
  | giveUp (state : MachMsgReturn)
  deriving DecidableEq, Repr

/-- The checks of `ipc_mqueue_receive` on the first queued message. -/
def examine (k : Kernel) (kmsg : Kmsg) (call : ReceiveCall) :
    Examined × Option (List Descriptor) :=
  if kmsg.oldFormat then
    if !hasFlag call.option machRcvOldFormat then
      (.dequeue machRcvHeaderError, call.list)
    else if kmsg.size > call.maxSize then
      (.reportSize machRcvTooLarge, call.list)
    else
      (.dequeue machMsgSuccess, call.list)
  else if hasFlag call.option machRcvOldFormat then
    if kmsg.complex || decide (kmsg.size > headerSize) || decide (call.maxSize < headerSize) then
      (.dequeue machRcvHeaderError, call.list)
    else
      (.dequeue machMsgSuccess, call.list)
  else if kmsg.size > call.maxSize - requestedTrailerSize k.beyondTrailers call.option then
    if hasFlag call.option machRcvLarge then
      (.reportSize machRcvTooLarge, call.list)
    else
      (.dequeue machRcvTooLarge, call.list)
  else
    match kmsg.complex, call.list with
    | true, some list =>
      let (state, list) := checkScatter k kmsg call.option list
      if state ≠ machMsgSuccess then
        if state = machRcvInvalidType || hasFlag state machMsgVmKernel then
          (.giveUp state, some list)
        else if hasFlag call.option machRcvLarge then
          (.reportSize state, some list)
        else
          (.dequeue state, some list)
      else
        (.dequeue machMsgSuccess, some list)
    | _, list => (.dequeue machMsgSuccess, list)

/-- The start of `ipc_mqueue_receive`: the first queued message is examined; `none` if there is no
message, and the thread has to wait. -/
def receiveQueued (k : Kernel) (q : Mqueue) (call : ReceiveCall) :
    Option (ReceiveResult × Mqueue × Option (List Descriptor)) :=
  match q.messages with
  | [] => none
  | kmsg :: rest =>
    match examine k kmsg call with
    | (.dequeue state, list) =>
      some (.message state kmsg q.seqno, { q with messages := rest, seqno := q.seqno + 1 }, list)
    | (.reportSize state, list) => some (.size state kmsg.size, q, list)
    | (.giveUp state, list) => some (.code state, q, list)

/-- A thread goes to sleep in `ipc_mqueue_receive`; its `ith_kmsg` and `ith_seqno` keep their old
contents. -/
def block (q : Mqueue) (call : ReceiveCall) (self : Receiver) : Mqueue :=
  { q with
    threads := q.threads ++ [{ self with
      state := machRcvInProgress
      rcvOption := call.option
      msize := call.maxSize
      list := call.list }] }

/-- The checks of `ipc_mqueue_send` and `ipc_mqueue_move` on a receiver taken from the wait queue:
the thread with its verdict, and whether it gets the message. -/
def offer (k : Kernel) (kmsg : Kmsg) (th : Receiver) : Receiver × Bool :=
  if kmsg.oldFormat then
    if !hasFlag th.rcvOption machRcvOldFormat then
      ({ th with state := machRcvHeaderError }, true)
    else if kmsg.size ≤ th.msize then
      ({ th with state := machMsgSuccess }, true)
    else
      ({ th with state := machRcvTooLarge, msize := kmsg.size }, false)
  else if hasFlag th.rcvOption machRcvOldFormat then
    if kmsg.complex || decide (kmsg.size > headerSize) || decide (th.msize < headerSize) then
      ({ th with state := machRcvHeaderError }, true)
    else
      ({ th with state := machMsgSuccess }, true)
  else if kmsg.size > th.msize - requestedTrailerSize k.beyondTrailers th.rcvOption then
    if hasFlag th.rcvOption machRcvLarge then
      ({ th with state := machRcvTooLarge, msize := kmsg.size }, false)
    else
      ({ th with state := machRcvTooLarge }, true)
  else
    match kmsg.complex, th.list with
    | true, some list =>
      let (state, list) := checkScatter k kmsg th.rcvOption list
      if state ≠ machMsgSuccess then
        if state = machRcvInvalidType || hasFlag state machMsgVmKernel then
          ({ th with state := state, list := some list }, false)
        else if hasFlag th.rcvOption machRcvLarge then
          ({ th with state := state, list := some list, msize := kmsg.size }, false)
        else
          ({ th with state := state, list := some list }, true)
      else
        ({ th with state := machMsgSuccess, list := some list }, true)
    | _, _ => ({ th with state := machMsgSuccess }, true)

/-- The loop of `ipc_mqueue_send` over the waiting receivers: the queue afterwards, and the threads
woken, each with its verdict. -/
def deliver (k : Kernel) (kmsg : Kmsg) : List Receiver → Mqueue → Mqueue × List Receiver
  | [], q => ({ q with messages := q.messages ++ [kmsg], threads := [] }, [])
  | th :: rest, q =>
    match offer k kmsg th with
    | (th, true) =>
      ({ q with threads := rest, seqno := q.seqno + 1 },
        [{ th with kmsg := kmsg, seqno := q.seqno }])
    | (th, false) =>
      let (q, woken) := deliver k kmsg rest q
      (q, th :: woken)

/-- The delivery part of `ipc_mqueue_send`. -/
def sendDeliver (k : Kernel) (kmsg : Kmsg) (q : Mqueue) : Mqueue × List Receiver :=
  deliver k kmsg q.threads q

/-- Why a thread that nobody handed anything runs again. -/
inductive WaitResult where
  | interrupted
  | timedOut
  deriving DecidableEq, Repr

/-- `ipc_mqueue_receive` after the thread has blocked: the switch on `ith_state`. -/
def resumeReceive (th : Receiver) (why : WaitResult) : ReceiveResult :=
  let returnKmsg := ReceiveResult.message th.state th.kmsg th.seqno
  if th.state = machMsgSuccess then
    returnKmsg
  else if th.state = machRcvInvalidType then
    .code th.state
  else if th.state = machRcvTooLarge ∨ th.state = machRcvScatterSmall then
    if !hasFlag th.rcvOption (machRcvLarge ||| machRcvOldFormat) then
      returnKmsg
    else
      .size th.state th.msize
  else if th.state = machRcvPortDied ∨ th.state = machRcvPortChanged then
    .code th.state
  else if th.state = machRcvInProgress then
    match why with
    | .interrupted => .code machRcvInterrupted
    | .timedOut => .retry
  else if th.state = machRcvHeaderError then
    returnKmsg
  else
    .panic

end Darwin.Ipc
