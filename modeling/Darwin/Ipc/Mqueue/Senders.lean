import Mathlib.Data.List.Basic
import Mathlib.Logic.Relation

/-!
# Senders blocked on a full port

The flow control of one port: the loop of `ipc_mqueue_send` up to the point where the message is
counted, the end of `ipc_mqueue_receive`, where the count is lowered and one sender is woken, and
`ipc_port_set_qlimit`.  A sender that sleeps on `ip_blocked` leaves it either because another thread
dequeued it with `MACH_MSG_SUCCESS`, in which case it goes through the loop once more, or because
its wait was interrupted or timed out.

The steps are the stretches of code a thread executes under the port lock, so a run is any
interleaving of any number of calls.

## Main results

* `no_stranded_sender`: as long as no woken sender destroys a circular message while the port has
  room, a sender sleeps only if the messages and the pending wake-ups fill the queue.
* `circular_strands_sender`: a woken sender with a circular message swallows the wake-up.
-/

namespace Darwin.Ipc.Senders

/-! ## The state of a port and of its senders -/

/-- What `ipc_mqueue_send` reads of its arguments. -/
structure SendCall where
  /-- The timeout, if `MACH_SEND_TIMEOUT` is given. -/
  timeout : Option ℕ
  /-- The internal option `MACH_SEND_ALWAYS`. -/
  sendAlways : Bool
  /-- The message goes to a send-once right. -/
  sendOnce : Bool
  /-- `MACH_MSGH_BITS_CIRCULAR` is set in the message. -/
  circular : Bool
  deriving DecidableEq, Repr

/-- A thread inside `ipc_mqueue_send`. -/
structure Sender (T : Type*) where
  thread : T
  call : SendCall
  deriving DecidableEq, Repr

/-- A port and the threads sending to it.  `woken` holds the senders that were dequeued with
`MACH_MSG_SUCCESS` and have not run yet; `queued` and `taken` count the messages in the queue (or
handed to a receiver) and those a receiver has, but for which it has not lowered `msgcount` yet. -/
structure Port (T : Type*) where
  active : Bool
  kernelReceiver : Bool
  msgcount : ℕ
  qlimit : ℕ
  blocked : List (Sender T)
  woken : List (Sender T)
  queued : ℕ
  taken : ℕ
  deriving DecidableEq, Repr

/-- The results of a pass through the loop of `ipc_mqueue_send`. -/
inductive SendReturn where
  /-- `MACH_MSG_SUCCESS`: the message was counted and is delivered. -/
  | accepted
  /-- `MACH_MSG_SUCCESS`, but the message was destroyed. -/
  | destroyed
  /-- `MACH_MSG_SUCCESS`: the kernel handled the message. -/
  | served
  /-- `MACH_SEND_TIMED_OUT`. -/
  | timedOut
  /-- `MACH_SEND_INTERRUPTED`. -/
  | interrupted
  /-- The thread sleeps on `ip_blocked`. -/
  | sleeps
  deriving DecidableEq, Repr

variable {T : Type*}

/-! ## The operations -/

/-- A port as `ipc_port_init` leaves it, with a queue limit of the caller's choice. -/
def Port.fresh (qlimit : ℕ) : Port T where
  active := true
  kernelReceiver := false
  msgcount := 0
  qlimit := qlimit
  blocked := []
  woken := []
  queued := 0
  taken := 0

/-- The test of `ipc_mqueue_send` that lets a message through. -/
def mayPass (p : Port T) (c : SendCall) : Bool :=
  decide (p.msgcount < p.qlimit) || c.sendAlways || c.sendOnce

/-- One pass through the loop of `ipc_mqueue_send`, and what follows the loop when the pass leaves
it. -/
def sendPass (p : Port T) (s : Sender T) : Port T × SendReturn :=
  if !p.active then
    (p, .destroyed)
  else if mayPass p s.call then
    -- a circular message is dropped here, before it is counted
    if s.call.circular then
      (p, .destroyed)
    else
      ({ p with msgcount := p.msgcount + 1, queued := p.queued + 1 }, .accepted)
  else if s.call.timeout = some 0 then
    (p, .timedOut)
  else
    ({ p with blocked := p.blocked ++ [s] }, .sleeps)

/-- `ipc_mqueue_send` up to its return or to the point where the thread sleeps. -/
def send (p : Port T) (s : Sender T) : Port T × SendReturn :=
  if p.kernelReceiver then (p, .served) else sendPass p s

/-- A sender that was woken runs again. -/
def resume [DecidableEq T] (p : Port T) (s : Sender T) : Port T × SendReturn :=
  sendPass { p with woken := p.woken.erase s } s

/-- A sleeping sender whose wait was interrupted gives up. -/
def interrupt [DecidableEq T] (p : Port T) (s : Sender T) : Port T × SendReturn :=
  ({ p with blocked := p.blocked.erase s }, .interrupted)

/-- A sleeping sender whose timeout expired makes one more pass, with a timeout of zero. -/
def expire [DecidableEq T] (p : Port T) (s : Sender T) : Port T × SendReturn :=
  sendPass { p with blocked := p.blocked.erase s }
    { s with call := { s.call with timeout := some 0 } }

/-- A receiver obtains a message: from the queue, or from the sender that handed it over. -/
def take (p : Port T) : Port T :=
  { p with queued := p.queued - 1, taken := p.taken + 1 }

/-- The end of `ipc_mqueue_receive`: the count is lowered and, if that leaves room, the first
blocked sender is woken. -/
def finishReceive (p : Port T) : Port T :=
  if p.active then
    let lowered := { p with msgcount := p.msgcount - 1, taken := p.taken - 1 }
    match lowered.blocked with
    | [] => lowered
    | sender :: rest =>
      if lowered.msgcount < lowered.qlimit then
        { lowered with blocked := rest, woken := lowered.woken ++ [sender] }
      else
        lowered
  else
    { p with taken := p.taken - 1 }

/-- The loop of `ipc_port_set_qlimit`: wake at most `wakeup` senders. -/
def wakeSenders : ℕ → Port T → Port T
  | 0, p => p
  | wakeup + 1, p =>
    match p.blocked with
    | [] => p
    | sender :: rest =>
      wakeSenders wakeup { p with blocked := rest, woken := p.woken ++ [sender] }

/-- `ipc_port_set_qlimit`. -/
def setQlimit (p : Port T) (qlimit : ℕ) : Port T :=
  let woken := if qlimit > p.qlimit then wakeSenders (qlimit - p.qlimit) p else p
  { woken with qlimit := qlimit }

/-! ## Runs -/

variable [DecidableEq T]

/-- A woken sender whose message is circular finds room in the queue. -/
def SwallowsWakeup (p : Port T) (s : Sender T) : Prop :=
  s.call.circular = true ∧ p.msgcount < p.qlimit

/-- One step of some thread.  `Guard p s` restricts the states in which a woken sender may run. -/
inductive Step (Guard : Port T → Sender T → Prop) : Port T → Port T → Prop
  | send {p : Port T} (s : Sender T) :
      (∀ other ∈ p.blocked ++ p.woken, other.thread ≠ s.thread) →
      Step Guard p (send p s).1
  | resume {p : Port T} {s : Sender T} : s ∈ p.woken → Guard p s → Step Guard p (resume p s).1
  | interrupt {p : Port T} {s : Sender T} : s ∈ p.blocked → Step Guard p (interrupt p s).1
  | expire {p : Port T} {s : Sender T} :
      s ∈ p.blocked → s.call.timeout ≠ none → Step Guard p (expire p s).1
  | take {p : Port T} : 0 < p.queued → Step Guard p (take p)
  | finishReceive {p : Port T} : 0 < p.taken → Step Guard p (finishReceive p)
  | setQlimit {p : Port T} (qlimit : ℕ) : Step Guard p (setQlimit p qlimit)

/-- Every interleaving of the calls, from a new port. -/
def Reachable (p : Port T) : Prop :=
  ∃ qlimit, Relation.ReflTransGen (Step fun _ _ => True) (Port.fresh qlimit) p

/-- The interleavings in which no woken sender drops a circular message while the port has room. -/
def ReachableKeepingWakeups (p : Port T) : Prop :=
  ∃ qlimit, Relation.ReflTransGen (Step fun p s => ¬ SwallowsWakeup p s) (Port.fresh qlimit) p

/-- No sender is left asleep while the port has room that no woken sender will claim. -/
def NoStrandedSender (p : Port T) : Prop :=
  p.blocked ≠ [] → p.qlimit ≤ p.msgcount + p.woken.length

/-! ## The invariant -/

/-- The invariant of a run: besides the claim itself, the count is that of the messages which are
queued or being received, so that `ipc_mqueue_receive` never lowers a count of zero. -/
structure Inv (p : Port T) : Prop where
  active : p.active = true
  counted : p.msgcount = p.queued + p.taken
  noStranded : NoStrandedSender p

omit [DecidableEq T] in
theorem inv_fresh (qlimit : ℕ) : Inv (Port.fresh qlimit : Port T) where
  active := rfl
  counted := rfl
  noStranded := fun asleep => absurd rfl asleep

variable {p q : Port T} {s : Sender T}

omit [DecidableEq T] in
/-- A pass through the loop keeps the invariant if it starts with it, and also if it starts one
wake-up short, provided the message is not dropped while there is room. -/
theorem sendPass_inv (active : p.active = true) (counted : p.msgcount = p.queued + p.taken)
    (kept : NoStrandedSender p ∨
      ((p.blocked ≠ [] → p.qlimit ≤ p.msgcount + (p.woken.length + 1)) ∧ ¬ SwallowsWakeup p s)) :
    Inv (sendPass p s).1 := by
  rw [sendPass, active]
  by_cases passes : mayPass p s.call = true
  · by_cases circular : s.call.circular = true
    · refine ⟨by simp [passes, circular, active], by simpa [passes, circular] using counted, ?_⟩
      rcases kept with kept | ⟨short, keeps⟩
      · simpa [passes, circular] using kept
      -- the message went past a full queue, so no wake-up was needed for it
      have full : ¬ p.msgcount < p.qlimit := fun room => keeps ⟨circular, room⟩
      intro asleep
      simp only [passes, circular, Bool.not_true, if_true, Bool.false_eq_true, if_false]
      omega
    · refine ⟨by simp [passes, circular], ?_, ?_⟩
      · simp only [passes, circular, Bool.not_true, if_true, Bool.false_eq_true, if_false]
        omega
      intro asleep
      simp only [passes, circular, Bool.not_true, if_true, Bool.false_eq_true, if_false] at asleep ⊢
      rcases kept with kept | ⟨short, -⟩
      · have := kept asleep
        omega
      · have := short asleep
        omega
  · have full : p.qlimit ≤ p.msgcount := by
      simp only [mayPass, Bool.or_eq_true, decide_eq_true_eq, not_or] at passes
      exact Nat.le_of_not_lt passes.1.1
    by_cases expired : s.call.timeout = some 0
    · refine ⟨by simp [passes, expired, active], by simpa [passes, expired] using counted, ?_⟩
      intro asleep
      simp only [passes, expired, Bool.not_true, if_true, Bool.false_eq_true, if_false]
      omega
    · refine ⟨by simp [passes, expired], by simpa [passes, expired] using counted, ?_⟩
      intro asleep
      simp only [passes, expired, Bool.not_true, Bool.false_eq_true, if_false]
      omega

omit [DecidableEq T] in
theorem send_inv (inv : Inv p) : Inv (send p s).1 := by
  rw [send]
  split
  · exact inv
  · exact sendPass_inv inv.active inv.counted (.inl inv.noStranded)

theorem resume_inv (inv : Inv p) (mem : s ∈ p.woken)
    (keeps : ¬ SwallowsWakeup p s) : Inv (resume p s).1 := by
  have waiting : (p.woken.erase s).length + 1 = p.woken.length :=
    List.length_erase_add_one mem
  refine sendPass_inv (p := { p with woken := p.woken.erase s }) inv.active inv.counted
    (.inr ⟨fun asleep => ?_, keeps⟩)
  rw [waiting]
  exact inv.noStranded asleep

private theorem ne_nil_of_erase_ne_nil {l : List (Sender T)} (h : l.erase s ≠ []) : l ≠ [] := by
  rintro rfl
  exact h rfl

theorem interrupt_inv (inv : Inv p) : Inv (interrupt p s).1 where
  active := inv.active
  counted := inv.counted
  noStranded := fun asleep => inv.noStranded (ne_nil_of_erase_ne_nil asleep)

theorem expire_inv (inv : Inv p) : Inv (expire p s).1 :=
  sendPass_inv (p := { p with blocked := p.blocked.erase s }) inv.active inv.counted
    (.inl fun asleep => inv.noStranded (ne_nil_of_erase_ne_nil asleep))

omit [DecidableEq T] in
theorem take_inv (inv : Inv p) (pending : 0 < p.queued) : Inv (take p) where
  active := inv.active
  counted := by
    have counted := inv.counted
    simp only [take]
    omega
  noStranded := inv.noStranded

omit [DecidableEq T] in
/-- Each message that leaves makes room for one, and that room goes to one wake-up. -/
theorem finishReceive_inv (inv : Inv p) (pending : 0 < p.taken) :
    Inv (finishReceive p) := by
  have counted := inv.counted
  have noStranded := inv.noStranded
  rw [NoStrandedSender] at noStranded
  rw [finishReceive, if_pos inv.active]
  cases senders : p.blocked with
  | nil => exact ⟨inv.active, by dsimp only; omega, fun asleep => absurd rfl asleep⟩
  | cons sender rest =>
    have filled := noStranded (by simp [senders])
    by_cases room : p.msgcount - 1 < p.qlimit
    · dsimp only
      rw [if_pos room]
      refine ⟨inv.active, by dsimp only; omega, fun _ => ?_⟩
      simp only [List.length_append, List.length_cons, List.length_nil]
      omega
    · dsimp only
      rw [if_neg room]
      refine ⟨inv.active, by dsimp only; omega, fun _ => ?_⟩
      dsimp only
      omega

omit [DecidableEq T] in
/-- The loop of `ipc_port_set_qlimit` touches only the two queues of senders, and it either wakes
them all or adds the full number of wake-ups. -/
theorem wakeSenders_spec (wakeup : ℕ) (p : Port T) :
    wakeSenders wakeup p = { p with
      blocked := p.blocked.drop wakeup
      woken := p.woken ++ p.blocked.take wakeup } := by
  induction wakeup generalizing p with
  | zero => simp [wakeSenders]
  | succ wakeup ih =>
    cases senders : p.blocked with
    | nil =>
      simp only [wakeSenders, senders, List.drop_nil, List.take_nil, List.append_nil]
      rw [← senders]
    | cons sender rest =>
      simp [wakeSenders, senders, ih]

omit [DecidableEq T] in
theorem setQlimit_inv (inv : Inv p) (qlimit : ℕ) : Inv (setQlimit p qlimit) := by
  rw [setQlimit]
  by_cases larger : qlimit > p.qlimit
  · simp only [larger, if_true, wakeSenders_spec]
    refine ⟨inv.active, inv.counted, fun asleep => ?_⟩
    -- someone still sleeps, so the loop ran its full number of times
    have remaining : qlimit - p.qlimit < p.blocked.length := by
      by_contra enough
      exact asleep (List.drop_eq_nil_of_le (Nat.le_of_not_lt enough))
    have filled := inv.noStranded (by
      rintro none
      simp [none] at remaining)
    simp only [List.length_append, List.length_take]
    omega
  · simp only [larger, if_false]
    refine ⟨inv.active, inv.counted, fun asleep => ?_⟩
    have filled := inv.noStranded asleep
    simp only
    omega

theorem step_inv (inv : Inv p) (step : Step (fun p s => ¬ SwallowsWakeup p s) p q) :
    Inv q := by
  cases step with
  | send s _ => exact send_inv inv
  | resume mem keeps => exact resume_inv inv mem keeps
  | interrupt _ => exact interrupt_inv inv
  | expire _ _ => exact expire_inv inv
  | take pending => exact take_inv inv pending
  | finishReceive pending => exact finishReceive_inv inv pending
  | setQlimit qlimit => exact setQlimit_inv inv qlimit

theorem run_inv (inv : Inv p)
    (run : Relation.ReflTransGen (Step fun p s => ¬ SwallowsWakeup p s) p q) : Inv q := by
  induction run with
  | refl => exact inv
  | tail _ step ih => exact step_inv ih step

/-! ## Stranded senders -/

/-- In every interleaving in which no woken sender drops a circular message while the port has room,
a sender sleeps only while the queued messages and the senders already woken fill the queue. -/
theorem no_stranded_sender {p : Port T} (reachable : ReachableKeepingWakeups p) :
    NoStrandedSender p := by
  obtain ⟨qlimit, run⟩ := reachable
  exact (run_inv (inv_fresh qlimit) run).noStranded

section Sample

/-- A send without options. -/
def plainCall (circular : Bool) : SendCall where
  timeout := none
  sendAlways := false
  sendOnce := false
  circular := circular

/-- Three threads send to a port of queue limit one; the message of thread 1 may be circular.  The
first message is received and thread 1 woken. -/
def oneReceived (circular : Bool) : Port ℕ :=
  let sent := (send (Port.fresh 1) ⟨0, plainCall false⟩).1
  let second := (send sent ⟨1, plainCall circular⟩).1
  let third := (send second ⟨2, plainCall false⟩).1
  finishReceive (take third)

theorem oneReceived_run (Guard : Port ℕ → Sender ℕ → Prop) (circular : Bool) :
    Relation.ReflTransGen (Step Guard) (Port.fresh 1) (oneReceived circular) := by
  refine .head (.send ⟨0, plainCall false⟩ (by decide)) ?_
  refine .head (.send ⟨1, plainCall circular⟩ (by cases circular <;> decide)) ?_
  refine .head (.send ⟨2, plainCall false⟩ (by cases circular <;> decide)) ?_
  refine .head (.take (by cases circular <;> decide)) ?_
  exact .single (.finishReceive (by cases circular <;> decide))

/-- With plain messages the wake-up becomes a message, and the last sender rightly sleeps. -/
theorem no_stranded_sender_plain :
    (resume (oneReceived false) ⟨1, plainCall false⟩).1.blocked = [⟨2, plainCall false⟩] ∧
    NoStrandedSender (resume (oneReceived false) ⟨1, plainCall false⟩).1 := by
  have keeps : ¬ SwallowsWakeup (oneReceived false) ⟨1, plainCall false⟩ := by
    rintro ⟨circular, -⟩
    exact absurd circular (by decide)
  refine ⟨by decide, no_stranded_sender ⟨1, (oneReceived_run _ false).tail ?_⟩⟩
  exact .resume (by decide) keeps

/-- The woken sender destroys its circular message and returns: thread 2 sleeps on an empty queue
and nobody is left to wake it. -/
theorem circular_strands_sender :
    ∃ p : Port ℕ, Reachable p ∧ p.blocked = [⟨2, plainCall false⟩] ∧ p.msgcount = 0 ∧
      p.woken = [] ∧ p.qlimit = 1 ∧ ¬ NoStrandedSender p := by
  refine ⟨(resume (oneReceived true) ⟨1, plainCall true⟩).1,
    ⟨1, (oneReceived_run _ true).tail (.resume (by decide) trivial)⟩,
    by decide, by decide, by decide, by decide, ?_⟩
  intro fine
  exact absurd (fine (by decide)) (by decide)

end Sample

end Darwin.Ipc.Senders
