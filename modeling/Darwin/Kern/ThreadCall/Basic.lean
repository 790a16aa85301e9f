import Darwin.Kern.Queue
import Mathlib.Data.Int.Notation

/-!
# Thread-based callouts

The callout entries of `kern/thread_call.c`, their queues and the routines on them.  The queues are
doubly linked through the entries themselves.  A routine gives no result where the code panics,
follows a pointer to a queue head as if it were an entry, or does not leave a queue within the
given number of turns.
-/

namespace Darwin.Kern.ThreadCall

open Darwin.Lib

section Time

/-- `tvalspec_t`. -/
structure Tvalspec where
  sec : ℕ
  nsec : ℤ
  deriving DecidableEq

/-- `TVALSPEC_ZERO`. -/
def tvalspecZero : Tvalspec := ⟨0, 0⟩

/-- `BAD_TVALSPEC`. -/
def badTvalspec (t : Tvalspec) : Bool := t.nsec < 0 || t.nsec ≥ 1000000000

/-- `CMP_TVALSPEC`: negative, zero or positive as `t₁` is before, at or after `t₂`. -/
def cmpTvalspec (t₁ t₂ : Tvalspec) : ℤ :=
  if t₁.sec > t₂.sec then 1
  else if t₁.sec < t₂.sec then -1
  else t₁.nsec - t₂.nsec

end Time

section Entries

inductive Status
  | idle
  | pending
  | delayed
  deriving DecidableEq

/-- An entry of `internal_call_storage`, or one that `thread_call_allocate` returned. -/
inductive Entry
  | internal (i : Fin 768)
  | external (c : ℕ)
  deriving DecidableEq

/-- The queue heads: three are global, and each run of the timer interrupt has one of its own. -/
inductive Head
  | free
  | pending
  | delayed
  | intransit (p : ℕ)
  deriving DecidableEq

abbrev Node := Head ⊕ Entry

/-- `struct _thread_call`, less its links. -/
structure CallEntry where
  func : ℕ
  spec : ℕ
  specProto : ℕ
  deadline : Tvalspec
  status : Status

/-- The entries, their queues, and the deadline the timer is set to, if it has not expired. -/
structure Calls where
  links : Links Node
  entry : Entry → CallEntry
  pendingCallNum : ℤ
  timer : Option Tvalspec

def Calls.setEntry (s : Calls) (call : Entry) (fields : CallEntry) : Calls :=
  { s with entry := Function.update s.entry call fields }

def Calls.setStatus (s : Calls) (call : Entry) (status : Status) : Calls :=
  s.setEntry call { s.entry call with status := status }

end Entries

section Routines

/-- `_internal_call_allocate`; it panics if there is no free entry. -/
def internalCallAllocate (s : Calls) : Option (Entry × Calls) :=
  match dequeueHead s.links (.inl .free) with
  | some (.inr call, links) => some (call, { s with links := links })
  | _ => none

/-- `thread_call_release`: an internal entry is free again. -/
def threadCallRelease (s : Calls) : Entry → Calls
  | .internal i => { s with links := enqueueTail s.links (.inl .free) (.inr (.internal i)) }
  | .external _ => s

/-- `_pending_call_enqueue`. -/
def pendingCallEnqueue (s : Calls) (call : Entry) : Calls :=
  Calls.setStatus
    { s with
      links := enqueueTail s.links (.inl .pending) (.inr call)
      pendingCallNum := s.pendingCallNum + 1 }
    call .pending

/-- `_pending_call_dequeue`. -/
def pendingCallDequeue (s : Calls) (call : Entry) : Calls :=
  Calls.setStatus
    { s with links := remqueue s.links (.inr call), pendingCallNum := s.pendingCallNum - 1 }
    call .idle

/-- The loop of `_delayed_call_enqueue`: the node that the entry goes after. -/
def delayedCallPlace (s : Calls) (deadline : Tvalspec) : ℕ → Node → Option Node
  | 0, _ => none
  | turns + 1, current =>
    if current = .inl .delayed then some (s.links.prev current)
    else
      match current with
      | .inl _ => none
      | .inr call =>
        let deadlineCmp := cmpTvalspec deadline (s.entry call).deadline
        if deadlineCmp < 0 then some (s.links.prev current)
        else if deadlineCmp = 0 then some current
        else delayedCallPlace s deadline turns (s.links.next current)

/-- `_delayed_call_enqueue`. -/
def delayedCallEnqueue (turns : ℕ) (s : Calls) (call : Entry) : Option Calls :=
  match delayedCallPlace s (s.entry call).deadline turns (s.links.next (.inl .delayed)) with
  | none => none
  | some current =>
    some (Calls.setStatus { s with links := insque s.links (.inr call) current } call .delayed)

/-- `_delayed_call_dequeue`. -/
def delayedCallDequeue (s : Calls) (call : Entry) : Calls :=
  Calls.setStatus { s with links := remqueue s.links (.inr call) } call .idle

/-- `_set_delayed_call_timer`. -/
def setDelayedCallTimer (s : Calls) (call : Entry) : Calls :=
  { s with timer := some (s.entry call).deadline }

/-- The loop that `_remove_from_pending_queue` and `_remove_from_delayed_queue` share, from the
node `call` on: whether an entry was removed is returned only if not all of them were to be. -/
def removeFromQueue (dequeue : Calls → Entry → Calls) (queue : Head) (func spec : ℕ)
    (removeAll : Bool) : ℕ → Calls → Node → Bool → Option (Calls × Bool)
  | 0, _, _, _ => none
  | turns + 1, s, current, removed =>
    if current = .inl queue then some (s, if removeAll then false else removed)
    else
      match current with
      | .inl _ => none
      | .inr call =>
        let next := s.links.next current
        if (s.entry call).func = func ∧ (s.entry call).spec = spec then
          let s := threadCallRelease (dequeue s call) call
          if removeAll then removeFromQueue dequeue queue func spec removeAll turns s next true
          else some (s, true)
        else removeFromQueue dequeue queue func spec removeAll turns s next removed

/-- `_remove_from_pending_queue`. -/
def removeFromPendingQueue (turns : ℕ) (s : Calls) (func spec : ℕ) (removeAll : Bool) :
    Option (Calls × Bool) :=
  removeFromQueue pendingCallDequeue .pending func spec removeAll turns s
    (s.links.next (.inl .pending)) false

/-- `_remove_from_delayed_queue`. -/
def removeFromDelayedQueue (turns : ℕ) (s : Calls) (func spec : ℕ) (removeAll : Bool) :
    Option (Calls × Bool) :=
  removeFromQueue delayedCallDequeue .delayed func spec removeAll turns s
    (s.links.next (.inl .delayed)) false

/-- The search of `thread_call_func`: whether a pending entry has this function and argument. -/
def pendingCallFind (s : Calls) (func spec : ℕ) : ℕ → Node → Option Bool
  | 0, _ => none
  | turns + 1, current =>
    if current = .inl .pending then some false
    else
      match current with
      | .inl _ => none
      | .inr call =>
        if (s.entry call).func = func ∧ (s.entry call).spec = spec then some true
        else pendingCallFind s func spec turns (s.links.next current)

/-- An entry goes on the delayed queue, and the timer is set if it is the first. -/
def delayedCallSchedule (turns : ℕ) (s : Calls) (call : Entry) : Option Calls :=
  match delayedCallEnqueue turns s call with
  | none => none
  | some s =>
    some (if s.links.next (.inl .delayed) = .inr call then setDelayedCallTimer s call else s)

/-- The first loop of `_delayed_call_interrupt`: the expired entries move to the queue of the
interrupt. -/
def takeExpired (p : ℕ) (timestamp : Tvalspec) : ℕ → Calls → Option Calls
  | 0, _ => none
  | turns + 1, s =>
    match s.links.next (.inl .delayed) with
    | .inl head => if head = .delayed then some s else none
    | .inr call =>
      if cmpTvalspec (s.entry call).deadline timestamp ≤ 0 then
        let s := delayedCallDequeue s call
        takeExpired p timestamp turns
          { s with links := enqueueTail s.links (.inl (.intransit p)) (.inr call) }
      else some s

/-- After the loop the timer is set for the first entry that has not expired. -/
def resetDelayedCallTimer (s : Calls) : Calls :=
  match s.links.next (.inl .delayed) with
  | .inl _ => s
  | .inr call => setDelayedCallTimer s call

end Routines

section Machine

/-- What a processor is doing on behalf of the callouts, between two stretches under
`thread_call_lock`. -/
inductive Activity
  | free
  /-- The timer has expired, and its function is about to be called. -/
  | expired (timestamp : Tvalspec)
  /-- `_call_thread_wake` is about to wake a callout thread, and then perhaps the activate thread.
  It was called by the timer interrupt or by a scheduling call. -/
  | wakingCall (wakeActivateThread interrupt : Bool)
  /-- `_call_thread_wake` is about to wake the activate thread. -/
  | wakingActivate (interrupt : Bool)
  /-- The timer interrupt is about to take the lock again. -/
  | relocking
  deriving DecidableEq

/-- A callout thread: about to run, waiting on `pending_call_num`, or in a callout function. -/
inductive ThreadState
  | ready
  | waiting
  | running (call : Entry)
  deriving DecidableEq

/-- The activate thread: about to run, about to create a callout thread, or waiting on
`call_thread_num`. -/
inductive ActivateState
  | ready
  | creating
  | waiting
  deriving DecidableEq

structure State where
  calls : Calls
  /-- The external entries that are allocated. -/
  live : ℕ → Bool
  activeCallNum : ℤ
  callThreadNum : ℤ
  processors : List Activity
  threads : List ThreadState
  activate : ActivateState

/-- `_call_thread_wake`: the wake-ups follow when the lock is released. -/
def callThreadWake (s : State) (p : ℕ) (interrupt : Bool) : State :=
  let wakeActivateThread : Bool :=
    s.callThreadNum < s.activeCallNum + s.calls.pendingCallNum
  { s with processors := s.processors.set p (.wakingCall wakeActivateThread interrupt) }

/-- What is left to do after `_call_thread_wake`. -/
def afterWake (interrupt : Bool) : Activity := if interrupt then .relocking else .free

/-- `thread_wakeup_one`: one of the waiting threads, if there is any, can run again. -/
def threadWakeupOne (threads : List ThreadState) (chosen : ℕ) : Option (List ThreadState) :=
  if .waiting ∈ threads then
    if threads[chosen]? = some .waiting then some (threads.set chosen .ready) else none
  else some threads

/-- `thread_call_func`. -/
def threadCallFunc (turns : ℕ) (s : State) (p func spec : ℕ) (uniqueCall : Bool) :
    Option State :=
  let found :=
    if uniqueCall then pendingCallFind s.calls func spec turns (s.calls.links.next (.inl .pending))
    else some false
  match found with
  | none => none
  | some true => some s
  | some false =>
    match internalCallAllocate s.calls with
    | none => none
    | some (call, calls) =>
      let calls := calls.setEntry call
        { calls.entry call with func := func, spec := spec, specProto := 0 }
      some (callThreadWake { s with calls := pendingCallEnqueue calls call } p false)

/-- `thread_call_func_delayed`. -/
def threadCallFuncDelayed (turns : ℕ) (s : State) (func spec : ℕ) (deadline : Tvalspec) :
    Option State :=
  let deadline := if badTvalspec deadline then tvalspecZero else deadline
  match internalCallAllocate s.calls with
  | none => none
  | some (call, calls) =>
    let calls := calls.setEntry call
      { calls.entry call with func := func, spec := spec, specProto := 0, deadline := deadline }
    match delayedCallSchedule turns calls call with
    | none => none
    | some calls => some { s with calls := calls }

/-- `thread_call_func_cancel`. -/
def threadCallFuncCancel (turns : ℕ) (s : State) (func spec : ℕ) (cancelAll : Bool) :
    Option State :=
  match removeFromPendingQueue turns s.calls func spec cancelAll with
  | none => none
  | some (calls, true) => some { s with calls := calls }
  | some (calls, false) =>
    match removeFromDelayedQueue turns calls func spec cancelAll with
    | none => none
    | some (calls, _) => some { s with calls := calls }

/-- `thread_call_allocate`. -/
def threadCallAllocate (s : State) (c func spec : ℕ) : State :=
  { s with
    calls := s.calls.setEntry (.external c)
      { func := func, spec := 0, specProto := spec, deadline := tvalspecZero, status := .idle }
    live := Function.update s.live c true }

/-- `thread_call_free`; it panics if the entry is not idle. -/
def threadCallFree (s : State) (c : ℕ) : Option State :=
  if (s.calls.entry (.external c)).status ≠ .idle then none
  else some { s with live := Function.update s.live c false }

/-- `thread_call_enter` and `thread_call_enter_spec`, which differ in the argument. -/
def enterPending (s : State) (p c spec : ℕ) : State :=
  let fields := s.calls.entry (.external c)
  if fields.status = .idle then
    let calls := s.calls.setEntry (.external c) { fields with spec := spec }
    callThreadWake { s with calls := pendingCallEnqueue calls (.external c) } p false
  else s

/-- `thread_call_enter`. -/
def threadCallEnter (s : State) (p c : ℕ) : State :=
  enterPending s p c (s.calls.entry (.external c)).specProto

/-- `thread_call_enter_spec`. -/
def threadCallEnterSpec (s : State) (p c spec : ℕ) : State := enterPending s p c spec

/-- `thread_call_enter_delayed` and `thread_call_enter_spec_delayed`, which differ in the
argument. -/
def enterDelayed (turns : ℕ) (s : State) (c spec : ℕ) (deadline : Tvalspec) : Option State :=
  let deadline := if badTvalspec deadline then tvalspecZero else deadline
  let fields := s.calls.entry (.external c)
  if fields.status = .idle then
    let calls := s.calls.setEntry (.external c) { fields with spec := spec, deadline := deadline }
    match delayedCallSchedule turns calls (.external c) with
    | none => none
    | some calls => some { s with calls := calls }
  else some s

/-- `thread_call_enter_delayed`. -/
def threadCallEnterDelayed (turns : ℕ) (s : State) (c : ℕ) (deadline : Tvalspec) :
    Option State :=
  enterDelayed turns s c (s.calls.entry (.external c)).specProto deadline

/-- `thread_call_enter_spec_delayed`. -/
def threadCallEnterSpecDelayed (turns : ℕ) (s : State) (c spec : ℕ) (deadline : Tvalspec) :
    Option State :=
  enterDelayed turns s c spec deadline

/-- `thread_call_cancel`. -/
def threadCallCancel (s : State) (c : ℕ) : State :=
  match (s.calls.entry (.external c)).status with
  | .pending =>
    { s with
      calls := threadCallRelease (pendingCallDequeue s.calls (.external c)) (.external c) }
  | .delayed =>
    { s with
      calls := threadCallRelease (delayedCallDequeue s.calls (.external c)) (.external c) }
  | .idle => s

/-- The number of callout threads that may wait, `call_thread_min`. -/
def callThreadMin : ℤ := 4

/-- A stretch of `_call_thread_continue` from the test of its loop: the thread takes the first
pending entry and is in its function when the lock is released, or it waits, or it ends. -/
def callThreadContinue (s : State) (i : ℕ) : Option State :=
  if s.calls.pendingCallNum > 0 then
    match dequeueHead s.calls.links (.inl .pending) with
    | some (.inr call, links) =>
      let calls := { s.calls with links := links, pendingCallNum := s.calls.pendingCallNum - 1 }
      some
        { s with
          calls := threadCallRelease (calls.setStatus call .idle) call
          activeCallNum := s.activeCallNum + 1
          threads := s.threads.set i (.running call) }
    | _ => none
  else if s.callThreadNum - s.activeCallNum ≤ callThreadMin then
    some { s with threads := s.threads.set i .waiting }
  else some { s with callThreadNum := s.callThreadNum - 1, threads := s.threads.eraseIdx i }

/-- A stretch of `_call_activate_thread_continue`. -/
def callActivateThreadContinue (s : State) : State :=
  if s.callThreadNum < s.activeCallNum + s.calls.pendingCallNum then
    { s with callThreadNum := s.callThreadNum + 1, activate := .creating }
  else { s with activate := .waiting }

/-- A turn of the second loop of `_delayed_call_interrupt`. -/
def enqueueExpired (s : State) (p : ℕ) : Option State :=
  match dequeueHead s.calls.links (.inl (.intransit p)) with
  | none => some { s with processors := s.processors.set p .free }
  | some (.inl _, _) => none
  | some (.inr call, links) =>
    some (callThreadWake
      { s with calls := pendingCallEnqueue { s.calls with links := links } call } p true)

/-- The first stretch of `_delayed_call_interrupt`, with the first turn of its second loop. -/
def delayedCallInterrupt (turns : ℕ) (s : State) (p : ℕ) (timestamp : Tvalspec) : Option State :=
  let calls := { s.calls with links := queueInit s.calls.links (.inl (.intransit p)) }
  match takeExpired p timestamp turns calls with
  | none => none
  | some calls => enqueueExpired { s with calls := resetDelayedCallTimer calls } p

/-- The public routines. -/
inductive Call
  | func (func spec : ℕ) (uniqueCall : Bool)
  | funcDelayed (func spec : ℕ) (deadline : Tvalspec)
  | funcCancel (func spec : ℕ) (cancelAll : Bool)
  | allocate (c func spec : ℕ)
  | free (c : ℕ)
  | enter (c : ℕ)
  | enterSpec (c spec : ℕ)
  | enterDelayed (c : ℕ) (deadline : Tvalspec)
  | enterSpecDelayed (c spec : ℕ) (deadline : Tvalspec)
  | cancel (c : ℕ)
  deriving DecidableEq

/-- A new entry is at an address not in use, and the entry of any other call is allocated. -/
def Call.Valid (s : State) : Call → Prop
  | .func .. | .funcDelayed .. | .funcCancel .. => True
  | .allocate c _ _ => s.live c = false
  | .free c | .enter c | .enterSpec c _ | .enterDelayed c _ | .enterSpecDelayed c _ _ |
    .cancel c => s.live c = true

instance (s : State) (call : Call) : Decidable (call.Valid s) := by
  cases call <;> unfold Call.Valid <;> infer_instance

def performCall (turns : ℕ) (s : State) (p : ℕ) : Call → Option State
  | .func func spec uniqueCall => threadCallFunc turns s p func spec uniqueCall
  | .funcDelayed func spec deadline => threadCallFuncDelayed turns s func spec deadline
  | .funcCancel func spec cancelAll => threadCallFuncCancel turns s func spec cancelAll
  | .allocate c func spec => some (threadCallAllocate s c func spec)
  | .free c => threadCallFree s c
  | .enter c => some (threadCallEnter s p c)
  | .enterSpec c spec => some (threadCallEnterSpec s p c spec)
  | .enterDelayed c deadline => threadCallEnterDelayed turns s c deadline
  | .enterSpecDelayed c spec deadline => threadCallEnterSpecDelayed turns s c spec deadline
  | .cancel c => some (threadCallCancel s c)

/-- One step: a stretch under the lock, or what a processor or the activate thread does between
two stretches. -/
inductive Action
  /-- A processor calls a public routine. -/
  | call (p : ℕ) (call : Call)
  /-- A processor goes on with `_call_thread_wake`; the callout thread to wake is chosen. -/
  | wake (p chosen : ℕ)
  /-- The timer expires on a processor. -/
  | expire (p : ℕ) (timestamp : Tvalspec)
  /-- A processor runs the next stretch of `_delayed_call_interrupt`. -/
  | interrupt (p : ℕ)
  /-- A callout thread runs its next stretch, after its function has returned if it was in one. -/
  | thread (i : ℕ)
  /-- The activate thread runs its next stretch or creates a callout thread. -/
  | activate
  deriving DecidableEq

def next (turns : ℕ) (s : State) : Action → Option State
  | .call p call =>
    if s.processors[p]? = some .free ∧ call.Valid s then performCall turns s p call else none
  | .wake p chosen =>
    match s.processors[p]? with
    | some (.wakingCall wakeActivateThread interrupt) =>
      match threadWakeupOne s.threads chosen with
      | none => none
      | some threads =>
        let activity :=
          if wakeActivateThread then .wakingActivate interrupt else afterWake interrupt
        some { s with threads := threads, processors := s.processors.set p activity }
    | some (.wakingActivate interrupt) =>
      some
        { s with
          activate := if s.activate = .waiting then .ready else s.activate
          processors := s.processors.set p (afterWake interrupt) }
    | _ => none
  | .expire p timestamp =>
    if s.processors[p]? = some .free ∧ s.calls.timer ≠ none then
      some
        { s with
          calls := { s.calls with timer := none }
          processors := s.processors.set p (.expired timestamp) }
    else none
  | .interrupt p =>
    match s.processors[p]? with
    | some (.expired timestamp) => delayedCallInterrupt turns s p timestamp
    | some .relocking => enqueueExpired s p
    | _ => none
  | .thread i =>
    match s.threads[i]? with
    | some .ready => callThreadContinue s i
    | some (.running _) => callThreadContinue { s with activeCallNum := s.activeCallNum - 1 } i
    | _ => none
  | .activate =>
    match s.activate with
    | .ready => some (callActivateThreadContinue s)
    | .creating => some { s with threads := s.threads ++ [.ready], activate := .ready }
    | .waiting => none

/-- The queues as `thread_call_init` leaves them: the heads are linked to themselves, and then all
internal entries are put on the free queue. -/
def initLinks : Links Node :=
  (List.finRange 768).foldl
    (fun links i => enqueueTail links (.inl .free) (.inr (.internal i))) ⟨id, id⟩

/-- `thread_call_init`: all internal entries are free, and the activate thread is started. -/
def threadCallInit (processors : ℕ) : State where
  calls :=
    { links := initLinks
      entry := fun _ =>
        { func := 0, spec := 0, specProto := 0, deadline := tvalspecZero, status := .idle }
      pendingCallNum := 0
      timer := none }
  live := fun _ => false
  activeCallNum := 0
  callThreadNum := 0
  processors := List.replicate processors .free
  threads := []
  activate := .ready

end Machine

end Darwin.Kern.ThreadCall
