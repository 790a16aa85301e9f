import Darwin.Lib.Runs
import Mathlib.Algebra.Order.Ring.Int

/-!
# The notifier of a NetInfo master

A model of `notify.c`.  The master queues a notification for each change; the notifier cuts the queue
into batches, numbers them and forks a thread for each, which visits the clones one after the other.
The number of the last batch that a clone took, `lastupdate`, is what keeps the threads in order: a
thread waits at a clone until the clone has taken the batch before its own.

A visit happens under the lock of the clone and is one action here; its outcome, which depends on
the network and on the clone, is part of the action.  Batches are numbered by natural numbers.
-/

namespace Darwin.Netinfo.Notify

/-- `NO_SEQUENCE_NUMBER`: the clone missed an update. -/
def noSequenceNumber : ℤ := -1

/-- `struct client_node`, with a record of the deliveries to it that were tried: the number of the
batch and whether the clone took all of it. -/
structure Clone where
  addr : ℕ
  lastupdate : ℤ
  upToDate : Bool
  attempts : List (ℕ × Bool)
  deriving DecidableEq, Repr

/-- A clone in a list that `getclonelist` has just made. -/
def Clone.new (addr : ℕ) : Clone :=
  { addr := addr, lastupdate := 0, upToDate := true, attempts := [] }

/-- The condition of the loop in which `push` waits for its turn at a clone. -/
def Clone.MustWait (c : Clone) (seq : ℕ) : Prop :=
  c.lastupdate < (seq : ℤ) - 1 ∧ c.lastupdate ≠ noSequenceNumber

instance (c : Clone) (seq : ℕ) : Decidable (c.MustWait seq) :=
  inferInstanceAs (Decidable (_ ∧ _))

/-- The clone failed on an earlier batch and has not been marked since. -/
def Clone.Skipped (c : Clone) : Prop := c.lastupdate = noSequenceNumber ∧ c.upToDate = false

instance (c : Clone) : Decidable c.Skipped := inferInstanceAs (Decidable (_ ∧ _))

/-- What `push` does at a clone once it need not wait. -/
def Clone.receive (c : Clone) (seq : ℕ) (ok : Bool) : Clone :=
  if c.Skipped then c
  else if ok then
    { c with lastupdate := seq, upToDate := true, attempts := c.attempts ++ [(seq, true)] }
  else
    { c with
      lastupdate := noSequenceNumber, upToDate := false, attempts := c.attempts ++ [(seq, false)] }

/-- `struct notify_node`: an update, or a resync with the list of clones that comes with it. -/
inductive Notification (Update : Type*) where
  | update (u : Update)
  | resync (newlist : List Clone)

/-- A call of `push` that has not returned: its batch and the position of the next clone.  A resync
carries no updates. -/
structure Push (Update : Type*) where
  seq : ℕ
  updates : List Update
  pos : ℕ

/-- The state of the notifier.  While it is `resyncing`, the only push is its own. -/
structure State (Update : Type*) where
  list : List Clone
  notifications : List (Notification Update)
  nextUpdateNumber : ℕ
  maxSubthreads : ℕ
  pushes : List (Push Update)
  resyncing : Bool

/-- The state in which `notify` starts to wait for updates. -/
def State.initial (Update : Type*) (addrs : List ℕ) (maxSubthreads : ℕ) : State Update where
  list := addrs.map Clone.new
  notifications := []
  nextUpdateNumber := 0
  maxSubthreads := maxSubthreads
  pushes := []
  resyncing := false

/-- Lop off the updates in front of the first resync. -/
def lopOff {Update : Type*} : List (Notification Update) → List Update × List (Notification Update)
  | .update u :: rest => (u :: (lopOff rest).1, (lopOff rest).2)
  | rest => ([], rest)

/-- `notify_mark_clone` on a list of clones: nothing happens unless one clone has the address. -/
def markClone (addr : ℕ) (clones : List Clone) : List Clone :=
  if (clones.filter (·.addr == addr)).length = 1 then
    clones.map fun c => if c.addr == addr then { c with upToDate := true } else c
  else
    clones

/-- `global_clone_list` is the list of the last resync in the queue, if there is one. -/
def markQueued {Update : Type*} (addr : ℕ) :
    List (Notification Update) → Option (List (Notification Update))
  | [] => none
  | n :: rest =>
    match markQueued addr rest with
    | some rest' => some (n :: rest')
    | none =>
      match n with
      | .resync newlist => some (.resync (markClone addr newlist) :: rest)
      | .update _ => none

inductive Action (Update : Type*) where
  /-- `notify_clients` for a change of the database. -/
  | notifyClients (u : Update)
  /-- `notify_resync`, with what it reads from the database. -/
  | notifyResync (addrs : List ℕ) (maxSubthreads : ℕ)
  /-- The notifier lops off a batch and forks a thread for it. -/
  | forkPush
  /-- The same, when `fork_push` finds no memory for the arguments of the thread. -/
  | forkPushFails
  /-- The notifier takes a resync from the queue. -/
  | resync
  /-- A push visits its next clone. -/
  | visit (i : ℕ) (ok : Bool)
  /-- A push has visited all clones. -/
  | finish (i : ℕ)
  | markClone (addr : ℕ)

variable {Update : Type*}

/-- The branch of the notifier's loop for updates: it waits until a thread is free.  The number is
used up whether a thread was started or not. -/
def State.takeBatch (s : State Update) (start : List Update → List (Push Update)) :
    Option (State Update) :=
  match s.notifications with
  | .update _ :: _ =>
    if s.resyncing ∨ s.maxSubthreads ≤ s.pushes.length then none
    else
      some { s with
        pushes := s.pushes ++ start (lopOff s.notifications).1
        notifications := (lopOff s.notifications).2
        nextUpdateNumber := s.nextUpdateNumber + 1 }
  | _ => none

/-- The branch for a resync: it waits until all threads have ended. -/
def State.takeResync (s : State Update) : Option (State Update) :=
  match s.notifications with
  | .resync newlist :: rest =>
    if s.resyncing ∨ s.pushes.length ≠ 0 then none
    else
      some { s with
        list := newlist
        notifications := rest
        nextUpdateNumber := 0
        pushes := [⟨0, [], 0⟩]
        resyncing := true }
  | _ => none

def State.visit (s : State Update) (i : ℕ) (ok : Bool) : Option (State Update) :=
  match s.pushes[i]? with
  | none => none
  | some p =>
    match s.list[p.pos]? with
    | none => none
    | some c =>
      if c.MustWait p.seq then none
      else
        some { s with
          list := s.list.set p.pos (c.receive p.seq ok)
          pushes := s.pushes.set i { p with pos := p.pos + 1 } }

/-- The end of a push.  After its own push the notifier counts up, too. -/
def State.finish (s : State Update) (i : ℕ) : Option (State Update) :=
  match s.pushes[i]? with
  | none => none
  | some p =>
    if p.pos < s.list.length then none
    else
      some { s with
        pushes := s.pushes.eraseIdx i
        nextUpdateNumber := if s.resyncing then s.nextUpdateNumber + 1 else s.nextUpdateNumber
        resyncing := false }

def State.markClone (s : State Update) (addr : ℕ) : State Update :=
  match markQueued addr s.notifications with
  | some queue => { s with notifications := queue }
  | none => { s with list := Notify.markClone addr s.list }

/-- One action; `none` where it cannot be taken. -/
def State.next (s : State Update) : Action Update → Option (State Update)
  | .notifyClients u => some { s with notifications := s.notifications ++ [.update u] }
  | .notifyResync addrs maxSubthreads =>
    some { s with
      notifications := s.notifications ++ [.resync (addrs.map Clone.new)]
      maxSubthreads := maxSubthreads }
  | .forkPush => s.takeBatch fun updates => [⟨s.nextUpdateNumber, updates, 0⟩]
  | .forkPushFails => s.takeBatch fun _ => []
  | .resync => s.takeResync
  | .visit i ok => s.visit i ok
  | .finish i => s.finish i
  | .markClone addr => some (s.markClone addr)

/-! ## What a clone has received -/

/-- The batches that a clone took since the list was made, in this order. -/
def Clone.accepted (c : Clone) : List ℕ := (c.attempts.filter (·.2)).map (·.1)

/-- Those that it took before it failed for the first time. -/
def Clone.beforeFailure (c : Clone) : List ℕ := (c.attempts.takeWhile (·.2)).map (·.1)

/-- A push waits at the clone it is to visit next. -/
def Waits (s : State Update) (p : Push Update) : Prop :=
  ∃ c, s.list[p.pos]? = some c ∧ c.MustWait p.seq

end Darwin.Netinfo.Notify
