import Darwin.Lib.PointerChain
import Mathlib.Data.Finset.Card
import Mathlib.Data.Fintype.Basic

/-!
# Port circularity: concurrent calls of `ipc_port_check_circularity`

A port whose receive right travels in a message is *in transit*: it is active, it has no receiver
name, and `ip_destination` is the port the message was sent to.  A port without a name and without
a destination is *in limbo*.  `ipc_port_check_circularity (port, dest)` moves `port` from limbo to
transit, unless that would close a circle.

Threads take and release one lock at a time, so the call is a program with a program counter, and
a system is a set of ports with their locks, the global lock, and the calls under way.  A field of
a port is read or written only by the thread that holds the port's lock; what happens to ports
outside of the calls is one step of the environment, on a port that nobody has locked.

## Main definitions

* `Port`, `Sys` - the ports, their locks, and the calls
* `Sys.advance` - the next step of a thread inside of its call
* `Step` - a step of a call, or of the environment
* `Run` - the runs, with what was seen of each call's chain
-/

namespace Darwin.Ipc.Circularity

open Darwin.Lib
open Function (update)

/-- `MACH_PORT_NULL`. -/
def machPortNull : ℕ := 0

/-- The fields of a port that decide its place in a chain.  `destination` shares its memory with
`ip_receiver`, so it means something only for an active port without a name. -/
structure Port (P : Type*) where
  active : Bool
  receiverName : ℕ
  destination : Option P

/-- Where a port is in transit to.  This is the test of both checks in the source: the chain goes on
unless `!ip_active(p) || p->ip_receiver_name != MACH_PORT_NULL || p->ip_destination == IP_NULL`. -/
def Port.transit {P : Type*} (port : Port P) : Option P :=
  if !port.active || port.receiverName != machPortNull then none else port.destination

/-- Active, without a name and without a destination. -/
def Port.InLimbo {P : Type*} (port : Port P) : Prop :=
  port.active = true ∧ port.receiverName = machPortNull ∧ port.destination = none

variable {P : Type*} {port : Port P}

theorem Port.InLimbo.transit (limbo : port.InLimbo) :
    port.transit = none := by
  obtain ⟨-, -, none⟩ := limbo
  rw [Port.transit, none, ite_self]

/-- What a port in transit looks like. -/
theorem Port.destination_of_transit {next : P}
    (transit : port.transit = some next) : port.destination = some next := by
  rw [Port.transit] at transit
  split at transit
  · cases transit
  · exact transit

/-- The next statement of a call.  A constructor with `base` or `next` carries the local variable
of that name. -/
inductive Pc (P : Type*) where
  /-- `if (port == dest) return TRUE` -/
  | start
  /-- `ip_lock(port)` of the quick check -/
  | quickLockPort
  /-- `ip_lock_try(dest)` -/
  | quickTry
  /-- `dest` is locked: is it in transit? -/
  | quickCheck
  /-- `ip_unlock(dest)` of the quick check -/
  | quickUnlockDest
  /-- `ip_unlock(port)` of the quick check -/
  | quickUnlockPort
  /-- `ipc_port_multiple_lock()` -/
  | lockMultiple
  /-- `ip_lock(base)` of the chain walk -/
  | walk (base : P)
  /-- `base` is locked: is it in transit? -/
  | test (base : P)
  /-- `ipc_port_multiple_unlock()`, with `port == base` -/
  | circUnlockMultiple
  /-- the loop `while (dest != IP_NULL)` -/
  | circUnlock (next : Option P)
  /-- `ip_lock(port)`, with the chain locked -/
  | lockPort (base : P)
  /-- `ipc_port_multiple_unlock()`, with the chain and `port` locked -/
  | unlockMultiple (base : P)
  /-- `not_circular:` `port->ip_destination = dest` -/
  | setDest (base : P)
  /-- the loop `while (port != base)`, and the unlocking of `base` after it -/
  | unlockWalk (next : Option P) (base : P)
  /-- the call has returned this value -/
  | returned (circular : Bool)

/-- One call `ipc_port_check_circularity (port, dest)`. -/
structure Call (P : Type*) where
  port : P
  dest : P
  pc : Pc P

/-- Ports, the owner of each port's lock, the owner of the lock `ipc_port_multiple_lock`, and the
call that each thread is in. -/
structure Sys (T P : Type*) where
  port : P → Port P
  owner : P → Option T
  multiple : Option T
  call : T → Option (Call P)

section Steps

variable {T P : Type*} [DecidableEq T] [DecidableEq P]

namespace Sys

/-- Where each port is in transit to. -/
def next (s : Sys T P) (p : P) : Option P := (s.port p).transit

/-- `ip_lock`; nothing if the thread has to wait. -/
def ipLock (s : Sys T P) (t : T) (p : P) : Option (Sys T P) :=
  if s.owner p = none then some { s with owner := update s.owner p (some t) } else none

/-- `ip_unlock`. -/
def ipUnlock (s : Sys T P) (p : P) : Sys T P :=
  { s with owner := update s.owner p none }

/-- `port->ip_destination = dest`. -/
def setDestination (s : Sys T P) (p dest : P) : Sys T P :=
  { s with port := update s.port p { s.port p with destination := some dest } }

/-- Thread `t` goes on at `pc`. -/
def goto (s : Sys T P) (t : T) (c : Call P) (pc : Pc P) : Sys T P :=
  { s with call := update s.call t (some { c with pc := pc }) }

/-- One step of the call `c` of thread `t`: nothing if the thread waits for a lock, if the call
has returned, or if a null pointer would be followed. -/
def advanceCall (s : Sys T P) (t : T) (c : Call P) : Option (Sys T P) :=
  match c.pc with
  | .start =>
    some (s.goto t c (if c.port = c.dest then .returned true else .quickLockPort))
  | .quickLockPort => (s.ipLock t c.port).map fun s => s.goto t c .quickTry
  | .quickTry =>
    match s.ipLock t c.dest with
    | some s => some (s.goto t c .quickCheck)
    | none => some (s.goto t c .quickUnlockPort)
  | .quickCheck =>
    match s.next c.dest with
    | none => some (s.goto t c (.setDest c.dest))
    | some _ => some (s.goto t c .quickUnlockDest)
  | .quickUnlockDest => some ((s.ipUnlock c.dest).goto t c .quickUnlockPort)
  | .quickUnlockPort => some ((s.ipUnlock c.port).goto t c .lockMultiple)
  | .lockMultiple =>
    if s.multiple = none then
      some ({ s with multiple := some t }.goto t c (.walk c.dest))
    else none
  | .walk base => (s.ipLock t base).map fun s => s.goto t c (.test base)
  | .test base =>
    match s.next base with
    | some next => some (s.goto t c (.walk next))
    | none => some (s.goto t c (if c.port = base then .circUnlockMultiple else .lockPort base))
  | .circUnlockMultiple =>
    some ({ s with multiple := none }.goto t c (.circUnlock (some c.dest)))
  | .circUnlock none => some (s.goto t c (.returned true))
  | .circUnlock (some dest) =>
    some ((s.ipUnlock dest).goto t c (.circUnlock (s.port dest).destination))
  | .lockPort base => (s.ipLock t c.port).map fun s => s.goto t c (.unlockMultiple base)
  | .unlockMultiple base => some ({ s with multiple := none }.goto t c (.setDest base))
  | .setDest base =>
    some ((s.setDestination c.port c.dest).goto t c (.unlockWalk (some c.port) base))
  | .unlockWalk none _ => none
  | .unlockWalk (some port) base =>
    if port = base then some ((s.ipUnlock base).goto t c (.returned false))
    else some ((s.ipUnlock port).goto t c (.unlockWalk (s.port port).destination base))
  | .returned _ => none

/-- The next step of a thread inside of its call. -/
def advance (s : Sys T P) (t : T) : Option (Sys T P) :=
  (s.call t).bind (s.advanceCall t)

end Sys

/-- The caller owns the right that is to be moved until the call has put `port` into the chain. -/
def Pc.claims : Pc P → Bool
  | .unlockWalk _ _ => false
  | .returned _ => false
  | _ => true

/-- A call under way owns the receive right of `p`. -/
def Sys.Claimed (s : Sys T P) (p : P) : Prop :=
  ∃ t c, s.call t = some c ∧ c.pc.claims = true ∧ c.port = p

/-- A thread that is in no call. -/
def Sys.Idle (s : Sys T P) (t : T) : Prop :=
  ∀ c, s.call t = some c → ∃ circular, c.pc = .returned circular

/-- What the rest of the kernel does to a port whose lock is free, and whose right is not owned by
a call. -/
inductive PortChange : Port P → Port P → Prop
  /-- `ipc_right_copyout`: the right is received; `ip_receiver` overwrites `ip_destination` -/
  | receive (port : Port P) (name : ℕ) (receiver : Option P) (active : port.active = true)
      (unnamed : port.receiverName = machPortNull) (named : name ≠ machPortNull) :
      PortChange port { port with receiverName := name, destination := receiver }
  /-- the right goes into a message, or to a backup port: the port is in limbo -/
  | limbo (port : Port P) (active : port.active = true) :
      PortChange port { port with receiverName := machPortNull, destination := none }
  /-- `ipc_port_destroy`: the port is dead; its other fields are garbage -/
  | destroy (port : Port P) (name : ℕ) (receiver : Option P) :
      PortChange port { active := false, receiverName := name, destination := receiver }
  /-- `ipc_port_alloc`: a dead port's memory is used for a new port -/
  | alloc (port : Port P) (name : ℕ) (receiver : Option P) (dead : port.active = false)
      (named : name ≠ machPortNull) :
      PortChange port { active := true, receiverName := name, destination := receiver }

/-- One step of the system. -/
inductive Step : Sys T P → Sys T P → Prop
  /-- a step of a call -/
  | advance (s : Sys T P) (t : T) (s' : Sys T P) (stepped : s.advance t = some s') : Step s s'
  /-- a thread without a call, that owns the right of a port in limbo, enters a call -/
  | enter (s : Sys T P) (t : T) (port dest : P) (idle : s.Idle t) (free : ¬ s.Claimed port)
      (limbo : (s.port port).InLimbo) :
      Step s { s with call := update s.call t (some ⟨port, dest, .start⟩) }
  /-- something else happens to a port -/
  | change (s : Sys T P) (p : P) (new : Port P) (unlocked : s.owner p = none)
      (free : ¬ s.Claimed p) (changes : PortChange (s.port p) new) :
      Step s { s with port := update s.port p new }

/-- The chain that starts at `dest` ends in `port`. -/
def Sys.EndsIn (s : Sys T P) (dest port : P) : Prop :=
  ∃ l, Chain s.next dest l port ∧ s.next port = none

/-- No locks and no calls, and no circle. -/
structure Sys.Initial (s : Sys T P) : Prop where
  unlocked : ∀ p, s.owner p = none
  unserialized : s.multiple = none
  noCalls : ∀ t, s.call t = none
  acyclic : AcyclicPointers s.next

/-- What was seen of the calls when the state `s` is reached: `seen t` says that at some moment
since thread `t` entered its call, the chain of `dest` ended in `port`.  What was seen of an earlier
call of the thread is forgotten at the start of the next one. -/
def see (seen : T → Prop) (s : Sys T P) (t : T) : Prop :=
  ∃ c, s.call t = some c ∧ (s.EndsIn c.dest c.port ∨ (seen t ∧ c.pc ≠ .start))

/-- The runs of the system: the state reached, and what was seen on the way. -/
inductive Run : Sys T P → (T → Prop) → Prop
  | initial (s : Sys T P) (initial : s.Initial) : Run s fun _ => False
  | step {s s' : Sys T P} {seen : T → Prop} (run : Run s seen) (step : Step s s') :
      Run s' (see seen s')

end Steps

end Darwin.Ipc.Circularity
