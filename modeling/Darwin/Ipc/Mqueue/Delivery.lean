import Darwin.Ipc.Mqueue.EarlyLate

/-!
# Delivery of messages among ports and port sets

A port has a message queue of its own; while it is a member of a port set, its messages go to the
queue of the set.  `ipc_pset_add` and `ipc_pset_remove` move the messages of a port from one queue
to the other, and on the way offer them to the threads that wait at the new queue.  A set that is
destroyed keeps its members, and their messages, until they are taken out one by one.

A step of the system is what one thread does while it has the message queues locked that it works
on: the delivery of a message, a change of sets, or one of the stretches of `ipc_mqueue_receive`.
All ports are active, and not owned by the kernel.

## Main definitions

* `Sys` - the queues, the waiting threads, and a history of what was accepted and handed over
* `Sys.deliver`, `Sys.move` - the delivery of `ipc_mqueue_send`, and `ipc_mqueue_move`
* `Step`, `Reachable` - the steps, in any order
-/

namespace Darwin.Ipc.Delivery

open Function (update)

/-- Where a thread is in `ipc_mqueue_receive`. -/
inductive Status (P S : Type*) where
  /-- not in a receive -/
  | out
  /-- on the wait queue of a message queue -/
  | waiting (q : P ⊕ S)
  /-- taken off the wait queue by another thread, not running yet -/
  | woken
  /-- has a message of this port with its sequence number, and has not lowered `ip_msgcount` yet -/
  | holding (p : P) (kmsg : Kmsg) (seqno : ℕ)

/-- A thread: its `ith_` fields, and the destination of the message in `ith_kmsg`. -/
structure Thread (P S : Type*) where
  rcv : Receiver
  remote : Option P
  status : Status P S

/-- A message that was handed to a thread. -/
structure Handed (T : Type*) where
  kmsg : Kmsg
  seqno : ℕ
  receiver : T

/-- Ports, port sets and threads.  A queue is named by the port or the set that it belongs to; a
message stands in it with its destination.

The last three fields are history: the messages accepted for a port, those handed to threads with
their sequence numbers, and the threads that have been given a message of a port that `ip_msgcount`
still counts. -/
structure Sys (P S T : Type*) where
  pset : P → Option S
  setActive : S → Bool
  messages : P ⊕ S → List (P × Kmsg)
  threads : P ⊕ S → List T
  thread : T → Thread P S
  msgcount : P → ℕ
  seqno : P → ℕ
  accepted : P → List Kmsg
  handed : P → List (Handed T)
  outstanding : List (T × P)

section Model

variable {P S T : Type*} [DecidableEq P] [DecidableEq S] [DecidableEq T]

namespace Sys

/-- The queue that the messages of a port go to. -/
def home (s : Sys P S T) (p : P) : P ⊕ S :=
  match s.pset p with
  | none => .inl p
  | some set => .inr set

/-- A message is handed to a thread: it gets the next sequence number of its port. -/
def give (s : Sys P S T) (t : T) (p : P) (kmsg : Kmsg) (thread : Thread P S) : Sys P S T :=
  { s with
    thread := update s.thread t thread
    seqno := update s.seqno p ((s.seqno p + 1) % 2 ^ 32)
    handed := update s.handed p (s.handed p ++ [⟨kmsg, s.seqno p, t⟩])
    outstanding := s.outstanding ++ [(t, p)] }

/-- A thread is taken off the wait queue. -/
def dequeue (s : Sys P S T) (q : P ⊕ S) (rest : List T) : Sys P S T :=
  { s with threads := update s.threads q rest }

/-- A thread is changed. -/
def setThread (s : Sys P S T) (t : T) (thread : Thread P S) : Sys P S T :=
  { s with thread := update s.thread t thread }

/-- The loop of `ipc_mqueue_send` and `ipc_mqueue_move` over the threads that wait at a queue. -/
def offerAll (k : Kernel) (q : P ⊕ S) (p : P) (kmsg : Kmsg) : List T → Sys P S T → Sys P S T
  | [], s => { s with messages := update s.messages q (s.messages q ++ [(p, kmsg)]) }
  | t :: rest, s =>
    match offer k kmsg (s.thread t).rcv with
    | (rcv, true) =>
      (s.dequeue q rest).give t p kmsg
        { rcv := { rcv with kmsg := kmsg, seqno := s.seqno p }, remote := some p, status := .woken }
    | (rcv, false) =>
      offerAll k q p kmsg rest
        ((s.dequeue q rest).setThread t { s.thread t with rcv := rcv, status := .woken })

/-- A message is delivered to a queue. -/
def deliver (s : Sys P S T) (k : Kernel) (q : P ⊕ S) (p : P) (kmsg : Kmsg) : Sys P S T :=
  offerAll k q p kmsg (s.threads q) s

/-- The delivery of `ipc_mqueue_send`. -/
def send (s : Sys P S T) (k : Kernel) (p : P) (kmsg : Kmsg) : Sys P S T :=
  { s with
    msgcount := update s.msgcount p (s.msgcount p + 1)
    accepted := update s.accepted p (s.accepted p ++ [kmsg]) }.deliver k (s.home p) p kmsg

/-- The messages of a port in a queue. -/
def ofPort (p : P) (l : List (P × Kmsg)) : List Kmsg := (l.filter fun m => m.1 = p).map Prod.snd

/-- `ipc_mqueue_move`: the messages of the port are taken out of the source, and delivered to the
destination one after the other. -/
def move (s : Sys P S T) (k : Kernel) (dest source : P ⊕ S) (p : P) : Sys P S T :=
  (ofPort p (s.messages source)).foldl (fun s kmsg => s.deliver k dest p kmsg)
    { s with messages :=
        update s.messages source ((s.messages source).filter fun m => m.1 ≠ p) }

/-- `ipc_mqueue_changed`: all waiting threads are woken with a code. -/
def changed (s : Sys P S T) (q : P ⊕ S) (code : MachMsgReturn) : Sys P S T :=
  { s with
    threads := update s.threads q []
    thread := fun t =>
      if t ∈ s.threads q then
        { s.thread t with rcv := { (s.thread t).rcv with state := code }, status := .woken }
      else s.thread t }

/-- `ipc_pset_add`. -/
def psetAdd (s : Sys P S T) (k : Kernel) (set : S) (p : P) : Sys P S T :=
  ({ s with pset := update s.pset p (some set) }.move k (.inr set) (.inl p) p).changed
    (.inl p) machRcvPortChanged

/-- `ipc_pset_remove`. -/
def psetRemove (s : Sys P S T) (k : Kernel) (set : S) (p : P) : Sys P S T :=
  { s with pset := update s.pset p none }.move k (.inl p) (.inr set) p

/-- `ipc_pset_move`; a null `nset` is `none`. -/
def psetMove (s : Sys P S T) (k : Kernel) (p : P) (nset : Option S) : Sys P S T :=
  if s.pset p = nset then s
  else
    match s.pset p, nset with
    | none, none => s
    | none, some nset => s.psetAdd k nset p
    | some oset, none => s.psetRemove k oset p
    | some oset, some nset => (s.psetRemove k oset p).psetAdd k nset p

/-- `ipc_pset_destroy`. -/
def psetDestroy (s : Sys P S T) (set : S) : Sys P S T :=
  { s with setActive := update s.setActive set false }.changed (.inr set) machRcvPortDied

/-- `ipc_mqueue_receive` up to the point where the thread has a message, returns without one, or
goes to sleep.  `poll` says that the timeout is zero. -/
def receive (s : Sys P S T) (k : Kernel) (t : T) (q : P ⊕ S) (call : ReceiveCall) (poll : Bool) :
    Sys P S T :=
  match s.messages q with
  | (p, kmsg) :: rest =>
    match examine k kmsg call with
    | (.dequeue _, _) =>
      { s with messages := update s.messages q rest }.give t p kmsg
        { s.thread t with status := .holding p kmsg (s.seqno p) }
    | (.reportSize _, _) => s.setThread t { s.thread t with status := .out }
    | (.giveUp _, _) => s.setThread t { s.thread t with status := .out }
  | [] =>
    if poll then s.setThread t { s.thread t with status := .out }
    else
      { s with threads := update s.threads q (s.threads q ++ [t]) }.setThread t
        { s.thread t with rcv := waiting call (s.thread t).rcv, status := .waiting q }

/-- `ipc_mqueue_copyin` for a port: a port in a set cannot be received from; a port whose set is
dead is taken out of it first. -/
def copyinPort (s : Sys P S T) (k : Kernel) (p : P) : Option (Sys P S T) :=
  match s.pset p with
  | none => some s
  | some set => if s.setActive set then none else some (s.psetRemove k set p)

/-- A thread that was woken resumes its receive: it picks up the message that it was handed, or
returns without one; nothing if the switch over `ith_state` ends in a panic. -/
def resume (s : Sys P S T) (t : T) (why : WaitResult) : Option (Sys P S T) :=
  match resumeReceive (s.thread t).rcv why with
  | .message _ kmsg seqno =>
    (s.thread t).remote.map fun p =>
      s.setThread t { s.thread t with status := .holding p kmsg seqno }
  | .size _ _ => some (s.setThread t { s.thread t with status := .out })
  | .code _ => some (s.setThread t { s.thread t with status := .out })
  | .retry => none
  | .panic => none

/-- The end of `ipc_mqueue_receive`: the thread lowers `ip_msgcount`, and returns the message. -/
def finish (s : Sys P S T) (t : T) (p : P) : Sys P S T :=
  { s with
    msgcount := update s.msgcount p (s.msgcount p - 1)
    outstanding := s.outstanding.filter fun entry => entry.1 ≠ t }.setThread t
      { s.thread t with status := .out }

/-- A thread that still waits runs because of a timeout or an interruption: it takes itself off the
wait queue, and after a timeout it polls once more. -/
def giveUp (s : Sys P S T) (k : Kernel) (t : T) (q : P ⊕ S) (why : WaitResult) : Sys P S T :=
  let s := { s with threads := update s.threads q ((s.threads q).filter fun u => u ≠ t) }
  match why with
  | .interrupted => s.setThread t { s.thread t with status := .out }
  | .timedOut => s.receive k t q
      ⟨(s.thread t).rcv.rcvOption, (s.thread t).rcv.msize, (s.thread t).rcv.list⟩ true

end Sys

/-- The steps of the system. -/
inductive Step : Sys P S T → Sys P S T → Prop
  | send (s : Sys P S T) (k : Kernel) (p : P) (kmsg : Kmsg) : Step s (s.send k p kmsg)
  | receivePort (s : Sys P S T) (k : Kernel) (t : T) (p : P) (call : ReceiveCall) (poll : Bool)
      (s₁ : Sys P S T) (idle : (s.thread t).status = .out) (copyin : s.copyinPort k p = some s₁) :
      Step s (s₁.receive k t (.inl p) call poll)
  | receiveSet (s : Sys P S T) (k : Kernel) (t : T) (set : S) (call : ReceiveCall) (poll : Bool)
      (idle : (s.thread t).status = .out) (active : s.setActive set = true) :
      Step s (s.receive k t (.inr set) call poll)
  | resume (s : Sys P S T) (t : T) (why : WaitResult) (s' : Sys P S T)
      (woken : (s.thread t).status = .woken) (resumed : s.resume t why = some s') : Step s s'
  | giveUp (s : Sys P S T) (k : Kernel) (t : T) (q : P ⊕ S) (why : WaitResult)
      (waits : (s.thread t).status = .waiting q) : Step s (s.giveUp k t q why)
  | finish (s : Sys P S T) (t : T) (p : P) (kmsg : Kmsg) (seqno : ℕ)
      (holds : (s.thread t).status = .holding p kmsg seqno) : Step s (s.finish t p)
  | psetAdd (s : Sys P S T) (k : Kernel) (set : S) (p : P) (active : s.setActive set = true)
      (free : s.pset p = none) : Step s (s.psetAdd k set p)
  | psetRemove (s : Sys P S T) (k : Kernel) (set : S) (p : P) (mem : s.pset p = some set) :
      Step s (s.psetRemove k set p)
  | psetMove (s : Sys P S T) (k : Kernel) (p : P) (nset : Option S)
      (active : ∀ set, nset = some set → s.setActive set = true) : Step s (s.psetMove k p nset)
  | psetDestroy (s : Sys P S T) (set : S) (active : s.setActive set = true) :
      Step s (s.psetDestroy set)

/-- No messages, and no threads in a receive. -/
structure Sys.Initial (s : Sys P S T) : Prop where
  alone : ∀ p, s.pset p = none
  messages : ∀ q, s.messages q = []
  threads : ∀ q, s.threads q = []
  idle : ∀ t, (s.thread t).status = .out
  msgcount : ∀ p, s.msgcount p = 0
  seqno : ∀ p, s.seqno p = 0
  accepted : ∀ p, s.accepted p = []
  handed : ∀ p, s.handed p = []
  outstanding : s.outstanding = []

/-- The states that can be reached. -/
inductive Reachable : Sys P S T → Prop
  | initial (s : Sys P S T) (initial : s.Initial) : Reachable s
  | step {s s' : Sys P S T} (reachable : Reachable s) (step : Step s s') : Reachable s'

end Model

end Darwin.Ipc.Delivery
