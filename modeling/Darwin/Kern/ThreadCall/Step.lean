import Darwin.Kern.ThreadCall.Staff
import Darwin.Lib.Runs

/-!
# Steps of the callout machine

What every step keeps, as long as no entry is entered or freed while a timer interrupt has it in
transit.

## Main results

* `next_stepped`: one step.
* `threadCallInit_kept`: the state after `thread_call_init`.
-/

namespace Darwin.Kern.ThreadCall

open List Option
open Function (update update_of_ne update_self)
open Darwin.Lib

/-- The timer is early enough, or it has expired and its function is about to be called. -/
def Alarmed (s : State) (lists : Head → List Entry) : Prop :=
  Timed s.calls lists ∨ ∃ timestamp, .expired timestamp ∈ s.processors

structure Kept (s : State) (lists : Head → List Entry) : Prop where
  sound : Sound s lists
  alarmed : Alarmed s lists
  manned : Manned s

def Action.Enters (c : ℕ) : Action → Prop
  | .call _ routine => routine.Enters c
  | _ => False

/-- The step neither enters nor frees an entry that is in transit. -/
def LeavesTransit (s : State) : Action → Prop
  | .call _ call => ∀ c, call.Enters c ∨ call.Frees c → ¬ InTransit s c
  | _ => True

/-- The deadline of the entry that the step puts on the delayed queue, if it does. -/
def Action.schedules (s : State) : Action → Option Tvalspec
  | .call _ routine => routine.schedules s
  | _ => none

/-- A stretch of a timer interrupt moves the first of the entries that it has taken off the delayed
queue to the end of the pending queue, and no other step has to do with the queue of the
interrupt. -/
structure Served (s : State) (a : Action) (lists lists' : Head → List Entry) : Prop where
  interrupt : ∀ p, a = .interrupt p → ∃ taken, lists' .pending = lists .pending ++ taken.take 1 ∧
    lists' (.intransit p) = taken.tail ∧
    ((∃ timestamp, s.processors[p]? = some (.expired timestamp)) ∧
      lists .delayed = taken ++ lists' .delayed ∨
    s.processors[p]? = some .relocking ∧ taken = lists (.intransit p))
  other : ∀ p, a ≠ .interrupt p → lists' (.intransit p) = lists (.intransit p)

/-- What one step does: an entry is on a queue only if it was on one before or is entered, and
entries are in transit only if they were before or the timer interrupt finds two that have
expired. -/
structure Stepped (s : State) (a : Action) (t : State) (lists lists' : Head → List Entry) :
    Prop where
  kept : Kept t lists'
  came : ∀ {c h}, .external c ∈ lists' h → (∃ h, .external c ∈ lists h) ∨ a.Enters c
  transit : ∀ p, lists' (.intransit p) ≠ [] → lists (.intransit p) ≠ [] ∨
    ∃ timestamp first second rest, a = .interrupt p ∧ s.processors[p]? = some (.expired timestamp) ∧
      lists .delayed = first :: second :: rest ∧
      cmpTvalspec (s.calls.entry second).deadline timestamp ≤ 0
  deadline : ∀ {e h}, e ∈ lists h → h ≠ .free →
    (t.calls.entry e).deadline = (s.calls.entry e).deadline
  delayed : Reordered t.calls (lists .delayed) (lists' .delayed) (a.schedules s)
  served : Served s a lists lists'

section Quiet

variable {s t : State} {a : Action} {lists lists' : Head → List Entry}

theorem Served.of_other (other : ∀ p, a ≠ .interrupt p)
    (same : ∀ p, lists' (.intransit p) = lists (.intransit p)) : Served s a lists lists' :=
  ⟨fun p interrupts => absurd interrupts (other p), fun p _ => same p⟩

/-- A step that changes no queue. -/
theorem Stepped.quiet (kept : Kept t lists) (same : t.calls.entry = s.calls.entry)
    (other : ∀ p, a ≠ .interrupt p) (schedules : a.schedules s = none) :
    Stepped s a t lists lists where
  kept := kept
  came {_ h} mem := .inl ⟨h, mem⟩
  transit _ := .inl
  deadline {e _} _ _ := congrArg CallEntry.deadline (congrFun same e)
  delayed := schedules ▸ .fewer (List.Sublist.refl _)
  served := .of_other other fun _ => rfl

end Quiet

section Processors

variable {s : State} {processors : List Activity} {lists : Head → List Entry} {p : ℕ}
  {old new : Activity}

/-- A processor that had no entries in transit may turn to something else. -/
theorem transit_set (transit : ∀ q, lists (.intransit q) ≠ [] →
      ∃ activity, processors[q]? = some activity ∧ activity.inInterrupt = true)
    (here : processors[p]? = some old)
    (goes_on : old.inInterrupt = true → new.inInterrupt = true) :
    ∀ q, lists (.intransit q) ≠ [] →
      ∃ activity, (processors.set p new)[q]? = some activity ∧ activity.inInterrupt = true := by
  intro q some_left
  obtain ⟨activity, at_q, mem⟩ := transit q some_left
  by_cases same : p = q
  · subst same
    obtain ⟨bound, -⟩ := List.getElem?_eq_some_iff.mp here
    cases here.symm.trans at_q
    exact ⟨new, List.getElem?_set_self bound, goes_on mem⟩
  · exact ⟨activity, (List.getElem?_set_ne same).trans at_q, mem⟩

/-- Whatever else a processor turns to, an expired timer is still to be served on another one. -/
theorem Alarmed.set {t : State} {lists' : Head → List Entry} (alarmed : Alarmed s lists)
    (timed : Timed s.calls lists → Timed t.calls lists')
    (here : s.processors[p]? = some old) (other : ∀ timestamp, old ≠ .expired timestamp)
    (processors : t.processors = s.processors.set p new) : Alarmed t lists' := by
  rcases alarmed with early | ⟨timestamp, mem⟩
  · exact .inl (timed early)
  right
  refine ⟨timestamp, ?_⟩
  rw [processors]
  rcases mem_or_mem_set here mem with same | mem
  · exact absurd same.symm (other timestamp)
  · exact mem

end Processors

section Interrupt

variable {s t : State} {lists : Head → List Entry} {p : ℕ} {old : Activity}

/-- One turn of the second loop of the timer interrupt. -/
theorem enqueueExpired_spec (held : Held s.calls lists)
    (live : ∀ {c h}, .external c ∈ lists h → s.live c = true)
    (transit : ∀ q, q ≠ p → lists (.intransit q) ≠ [] →
      ∃ activity, s.processors[q]? = some activity ∧ activity.inInterrupt = true)
    (manned : Manned s) (here : s.processors[p]? = some old)
    (old_call : old.wakesCall = false) (old_activate : old.wakesActivate = false)
    (found : enqueueExpired s p = some t) :
    ∃ lists', Sound t lists' ∧ Manned t ∧ (Timed s.calls lists → Timed t.calls lists') ∧
      (∀ {e h}, e ∈ lists' h → ∃ h, e ∈ lists h) ∧
      (∀ q, q ≠ p → lists' (.intransit q) = lists (.intransit q)) ∧
      lists' (.intransit p) = (lists (.intransit p)).tail ∧
      lists' .pending = lists .pending ++ (lists (.intransit p)).take 1 ∧
      lists' .delayed = lists .delayed ∧
      (∀ e, (t.calls.entry e).deadline = (s.calls.entry e).deadline) ∧
      ∃ new, t.processors = s.processors.set p new := by
  obtain ⟨bound, -⟩ := List.getElem?_eq_some_iff.mp here
  have elsewhere : ∀ {new q}, q ≠ p → lists (.intransit q) ≠ [] →
      ∃ activity, (s.processors.set p new)[q]? = some activity ∧
        activity.inInterrupt = true := by
    intro new q other some_left
    obtain ⟨activity, at_q, mem⟩ := transit q other some_left
    exact ⟨activity, (List.getElem?_set_ne other.symm).trans at_q, mem⟩
  cases moving : lists (.intransit p) with
  | nil =>
    rw [enqueueExpired, dequeueHead_nil held.queued moving] at found
    rw [← some.inj found]
    refine ⟨lists, ⟨held, live, ?_⟩, ?_, id, fun {e h} mem => ⟨h, mem⟩, fun _ _ => rfl,
      moving, (append_nil _).symm, rfl, fun e => rfl, _, rfl⟩
    · intro q some_left
      have other : q ≠ p := by
        rintro rfl
        exact some_left moving
      exact elsewhere other some_left
    · exact manned.quiet rfl rfl rfl rfl (Int.le_refl _) here rfl old_call old_activate
  | cons e l =>
    rw [enqueueExpired, dequeueHead_cons held.queued moving] at found
    rw [← some.inj found]
    -- The entry leaves the queue of the interrupt, and goes on the pending queue.
    have removed := remqueue_held held moving Head.noConfusion Head.noConfusion
    have split : lists (.intransit p) = [] ++ e :: l := moving
    have member : e ∈ lists (.intransit p) := moving ▸ mem_cons_self
    have less := update_split_sublist split
    have held' := pendingCallEnqueue_held removed (held.queued.off_update split)
    have moved := pendingCallEnqueue_moved
      { s.calls with links := remqueue s.calls.links (.inr e) } e
    rw [update_of_ne (Head.noConfusion : Head.pending ≠ .intransit p)] at held'
    have origin : ∀ {x h}, x ∈ update (update lists (.intransit p) l) .pending
        (lists .pending ++ [e]) h → ∃ h, x ∈ lists h := by
      intro x h mem
      by_cases same : h = .pending
      · subst same
        rw [update_self, mem_append, mem_singleton] at mem
        rcases mem with mem | rfl
        · exact ⟨_, mem⟩
        · exact ⟨_, member⟩
      · rw [update_of_ne same] at mem
        exact ⟨h, (less h).subset mem⟩
    have same_transit : ∀ q, q ≠ p → update (update lists (.intransit p) l)
        .pending (lists .pending ++ [e]) (.intransit q) = lists (.intransit q) := by
      intro q other
      rw [update_of_ne Head.noConfusion, update_of_ne]
      rintro ⟨⟩
      exact other rfl
    have same_delayed : update (update lists (.intransit p) l) .pending
        (lists .pending ++ [e]) .delayed = lists .delayed := by
      rw [update_of_ne (by decide), update_of_ne Head.noConfusion]
    refine ⟨_, ⟨held', ?_, ?_⟩, ?_, ?_, origin, same_transit, ?_, update_self .., same_delayed,
      moved.deadline, _, rfl⟩
    · intro c h mem
      obtain ⟨h, mem⟩ := origin mem
      exact live mem
    · intro q some_left
      by_cases other : q = p
      · subst other
        exact ⟨_, List.getElem?_set_self bound, rfl⟩
      · rw [same_transit q other] at some_left
        exact elsewhere other some_left
    · exact manned.enqueue rfl rfl rfl rfl rfl here rfl old_call
    · intro timed
      apply timed.sublist held
      · rw [same_delayed]
      · rfl
      · exact fun x _ => moved.deadline x
    · rw [update_of_ne Head.noConfusion, update_self, tail_cons]

/-- `queue_init` on a queue that is empty anyway. -/
theorem queueInit_held {calls : Calls} {h : Head} (held : Held calls lists) (empty : lists h = []) :
    { calls with links := queueInit calls.links (.inl h) } = calls := by
  have next := held.queued.next_head h
  have prev := held.queued.prev_head h
  rw [empty] at next prev
  have same : queueInit calls.links (.inl h) = calls.links := by
    rw [firstNode_nil] at next
    rw [lastNode_nil] at prev
    rw [queueInit, setNext, setPrev]
    congr 1
    · exact Function.update_eq_self_iff.mpr next.symm
    · exact Function.update_eq_self_iff.mpr prev.symm
  rw [same]

/-- The timer is set for the first delayed entry, if there is one. -/
theorem resetDelayedCallTimer_held {calls : Calls} (held : Held calls lists) :
    Held (resetDelayedCallTimer calls) lists ∧ Timed (resetDelayedCallTimer calls) lists ∧
      ∀ e, ((resetDelayedCallTimer calls).entry e).deadline = (calls.entry e).deadline := by
  have first := held.queued.next_head .delayed
  cases delayed : lists .delayed with
  | nil =>
    rw [delayed, firstNode_nil] at first
    rw [resetDelayedCallTimer, first]
    refine ⟨held, ?_, fun e => rfl⟩
    intro e l split
    rw [delayed] at split
    cases split
  | cons call rest =>
    rw [delayed, firstNode_cons] at first
    rw [resetDelayedCallTimer, first]
    refine ⟨⟨held.queued, held.pending_iff, held.delayed_iff, held.num, held.internal,
      held.sorted⟩, ?_, fun e => rfl⟩
    intro e l split
    rw [delayed] at split
    obtain ⟨rfl, -⟩ := List.cons.inj split
    exact ⟨_, rfl, Int.le_of_eq cmpTvalspec_self⟩

/-- The first stretch of the timer interrupt. -/
theorem delayedCallInterrupt_stepped {turns : ℕ} {timestamp : Tvalspec} (kept : Kept s lists)
    (here : s.processors[p]? = some (.expired timestamp))
    (found : delayedCallInterrupt turns s p timestamp = some t) :
    ∃ lists', Stepped s (.interrupt p) t lists lists' ∧
      ∀ first second rest, lists .delayed = first :: second :: rest →
        cmpTvalspec (s.calls.entry second).deadline timestamp ≤ 0 →
          lists' (.intransit p) ≠ [] := by
  have sound := kept.sound
  have empty : lists (.intransit p) = [] := by
    by_contra some_left
    obtain ⟨activity, at_p, mem⟩ := sound.transit p some_left
    cases here.symm.trans at_p
    cases mem
  rw [delayedCallInterrupt] at found
  rw [queueInit_held sound.held empty] at found
  split at found
  · cases found
  rename_i calls taken
  obtain ⟨lists', expired, held, delayed, transit, same, deadline, due, last⟩ :=
    takeExpired_held sound.held taken
  obtain ⟨held', timed, same_deadline⟩ := resetDelayedCallTimer_held held
  rw [empty, nil_append] at transit
  have origin : ∀ {e h}, e ∈ lists' h → ∃ h, e ∈ lists h := by
    intro e h mem
    by_cases is_delayed : h = .delayed
    · subst is_delayed
      exact ⟨.delayed, delayed ▸ mem_append_right _ mem⟩
    by_cases is_transit : h = .intransit p
    · subst is_transit
      rw [transit] at mem
      exact ⟨.delayed, delayed ▸ mem_append_left _ mem⟩
    · rw [same h is_delayed is_transit] at mem
      exact ⟨h, mem⟩
  have elsewhere : ∀ q, q ≠ p → lists' (.intransit q) = lists (.intransit q) := by
    intro q other
    apply same _ Head.noConfusion
    rintro ⟨⟩
    exact other rfl
  have pending : calls.pendingCallNum = s.calls.pendingCallNum := by
    rw [held.num, sound.held.num, same .pending (by decide) Head.noConfusion]
  have manned : Manned { s with calls := resetDelayedCallTimer calls } := by
    have num : (resetDelayedCallTimer calls).pendingCallNum = s.calls.pendingCallNum := by
      rw [held'.num, ← held.num, pending]
    exact kept.manned.fewer rfl rfl rfl rfl (Int.le_of_eq num) (Nat.le_refl _) id
  obtain ⟨lists'', sound', manned', timed', origin', elsewhere', left, queued, still, deadline', new,
    processors⟩ := enqueueExpired_spec (s := { s with calls := resetDelayedCallTimer calls }) held'
      (fun mem => by
        obtain ⟨h, mem⟩ := origin mem
        exact sound.live mem)
      (fun q other some_left => sound.transit q (elsewhere q other ▸ some_left))
      manned here rfl rfl found
  refine ⟨lists'', ⟨⟨sound', .inl (timed' timed), manned'⟩, ?_, ?_, ?_, ?_, ?_, ?_⟩, ?_⟩
  · intro c h mem
    obtain ⟨h, mem⟩ := origin' mem
    exact .inl (origin mem)
  · intro q some_left
    by_cases other : q = p
    · subst other
      -- What is left in transit after the first turn is the second expired entry and the rest.
      rw [left, transit] at some_left
      cases expired with
      | nil => exact absurd rfl some_left
      | cons first others =>
        cases others with
        | nil => exact absurd rfl some_left
        | cons second rest =>
          right
          refine ⟨timestamp, first, second, rest ++ lists' .delayed, rfl, here, delayed, ?_⟩
          exact due second (mem_cons_of_mem _ mem_cons_self)
    · rw [elsewhere' q other, elsewhere q other] at some_left
      exact .inl some_left
  · exact fun {e _} _ _ => (deadline' e).trans ((same_deadline e).trans (deadline e))
  · refine .fewer ?_
    rw [still, delayed]
    exact List.sublist_append_right expired _
  · rintro q ⟨⟩
    rw [left, queued, still, transit, same .pending (by decide) Head.noConfusion]
    exact ⟨expired, rfl, rfl, .inl ⟨⟨timestamp, here⟩, delayed⟩⟩
  · intro q other
    have apart : q ≠ p := by
      rintro rfl
      exact other rfl
    rw [elsewhere' q apart, elsewhere q apart]
  · intro first second rest split second_due
    have order := sound.held.sorted
    rw [split] at order
    have first_due := cmpTvalspec_trans ((pairwise_cons.mp order).1 second mem_cons_self) second_due
    rw [delayed] at split
    rw [left, transit]
    -- The entries that stay on the delayed queue have not expired, so both of these have left it.
    match expired, split with
    | [], split => exact absurd first_due (last first _ split)
    | [_], split =>
      have left_over := (List.cons.inj split).2
      exact absurd second_due (last second _ left_over)
    | _ :: _ :: _, _ => exact cons_ne_nil _ _

/-- A later stretch of the timer interrupt. -/
theorem enqueueExpired_stepped (kept : Kept s lists) (here : s.processors[p]? = some .relocking)
    (found : enqueueExpired s p = some t) :
    ∃ lists', Stepped s (.interrupt p) t lists lists' := by
  obtain ⟨lists', sound, manned, timed, origin, elsewhere, left, queued, still, deadline, new,
    processors⟩ := enqueueExpired_spec kept.sound.held kept.sound.live (fun q _ => kept.sound.transit q)
      kept.manned here rfl rfl found
  refine ⟨lists', ⟨sound, ?_, manned⟩, fun mem => .inl (origin mem), ?_,
    fun {e _} _ _ => deadline e, ?_, ?_, ?_⟩
  · exact kept.alarmed.set timed here (fun _ => Activity.noConfusion) processors
  · intro q some_left
    left
    by_cases other : q = p
    · subst other
      intro empty
      rw [left, empty] at some_left
      exact some_left rfl
    · rwa [← elsewhere q other]
  · refine .fewer ?_
    rw [still]
  · rintro q ⟨⟩
    exact ⟨_, queued, left, .inr ⟨here, rfl⟩⟩
  intro q other
  apply elsewhere
  rintro rfl
  exact other rfl

end Interrupt

section Threads

variable {s t : State} {lists : Head → List Entry} {i : ℕ} {thread : ThreadState}

/-- The callout thread `i` takes the entry off the pending queue, to call its function. -/
def Takes (s : State) (a : Action) (t : State) (call : Entry) : Prop :=
  ∃ i, a = .thread i ∧ i < s.threads.length ∧ t.threads = s.threads.set i (.running call)

/-- A stretch of a callout thread, after it has been counted out of its function. -/
theorem callThreadContinue_stepped (kept : Kept s lists) (here : s.threads[i]? = some thread)
    (not_waiting : thread ≠ .waiting) {active : ℤ}
    (counted : active = s.activeCallNum - if thread.isRunning then 1 else 0)
    (found : callThreadContinue { s with activeCallNum := active } i = some t) :
    ∃ lists', Stepped s (.thread i) t lists lists' ∧
      ∀ e, Takes s (.thread i) t e → e ∈ lists .pending := by
  have sound := kept.sound
  obtain ⟨bound, -⟩ := List.getElem?_eq_some_iff.mp here
  rw [callThreadContinue] at found
  split at found
  case isTrue some_pending =>
    cases pending : lists .pending with
    | nil =>
      have num := sound.held.num
      rw [pending, length_nil] at num
      dsimp only at some_pending
      omega
    | cons e rest =>
      rw [dequeueHead_cons sound.held.queued pending] at found
      rw [← some.inj found]
      have split : lists .pending = [] ++ e :: rest := pending
      obtain ⟨lists', held, shrunk, -, -⟩ := pendingCallDequeue_dequeues.release sound.held split
      refine ⟨lists', ⟨⟨⟨held, ?_, ?_⟩, ?_, ?_⟩, ?_, ?_, fun {e _} _ _ => shrunk.deadline e,
        .fewer shrunk.delayed, .of_other (fun _ => Action.noConfusion) shrunk.transit⟩, ?_⟩
      · intro c h mem
        obtain ⟨h, mem⟩ := shrunk.inside mem
        exact sound.live mem
      · intro p some_left
        exact sound.transit p (shrunk.transit p ▸ some_left)
      · rcases kept.alarmed with early | expired
        · left
          exact early.sublist sound.held shrunk.delayed shrunk.timer fun e _ => shrunk.deadline e
        · exact .inr expired
      · apply kept.manned.run here not_waiting
        case threads => rfl
        case activate => rfl
        case processors => rfl
        case active =>
          dsimp only
          rw [counted]
          split <;> omega
        case thread_num => rfl
        case fewer => cases e <;> rfl
      · exact fun mem => .inl (shrunk.inside mem)
      · intro p some_left
        exact .inl (shrunk.transit p ▸ some_left)
      rintro e' ⟨_, ⟨⟩, -, running⟩
      have same := congrArg (fun threads => threads[i]?) running
      simp only [List.getElem?_set_self bound] at same
      obtain ⟨⟩ := same
      exact mem_cons_self
  case isFalse none_pending =>
    have none_left : s.calls.pendingCallNum ≤ 0 := by
      dsimp only at none_pending
      omega
    split at found
    case isTrue =>
      rw [← some.inj found]
      refine ⟨lists, .quiet ⟨⟨sound.held, sound.live, sound.transit⟩, kept.alarmed, ?_⟩ rfl
        (fun _ => Action.noConfusion) rfl, ?_⟩
      · exact kept.manned.wait here not_waiting rfl rfl rfl counted rfl rfl none_left
      rintro e ⟨_, ⟨⟩, -, running⟩
      have same := congrArg (fun threads => threads[i]?) running
      simp only [List.getElem?_set_self bound] at same
      cases same
    case isFalse many =>
      rw [← some.inj found]
      refine ⟨lists, .quiet ⟨⟨sound.held, sound.live, sound.transit⟩, kept.alarmed, ?_⟩ rfl
        (fun _ => Action.noConfusion) rfl, ?_⟩
      · have still_many : ¬ s.callThreadNum - 1 + 1 - active ≤ callThreadMin := by
          dsimp only at many
          omega
        exact kept.manned.retire here rfl rfl counted rfl rfl none_left still_many
      · rintro e ⟨_, ⟨⟩, -, running⟩
        have same := congrArg List.length running
        rw [length_set, length_eraseIdx_of_lt bound] at same
        omega

end Threads

section Next

variable {s t : State} {lists : Head → List Entry} {a : Action} {turns : ℕ}

/-- What any step does, if it leaves the entries in transit alone. -/
theorem next_stepped (kept : Kept s lists) (leaves : LeavesTransit s a)
    (stepped : next turns s a = some t) :
    ∃ lists', Stepped s a t lists lists' ∧ ∀ e, Takes s a t e → e ∈ lists .pending := by
  have sound := kept.sound
  have other_step : ∀ {t}, (∀ i, a ≠ .thread i) → ∀ e, Takes s a t e → e ∈ lists .pending := by
    rintro t not_thread e ⟨i, same, -⟩
    exact absurd same (not_thread i)
  cases a with
  | call p call =>
    rw [next] at stepped
    split at stepped
    case isFalse => cases stepped
    case isTrue possible =>
      obtain ⟨here, valid⟩ := possible
      obtain ⟨lists', performed⟩ := performCall_performed sound valid leaves stepped
      refine ⟨lists', ⟨⟨⟨performed.held, performed.live, ?_⟩, ?_, ?_⟩, performed.came, ?_,
        performed.deadline, performed.delayed, .of_other (fun _ => Action.noConfusion)
          performed.transit⟩, other_step fun _ => Action.noConfusion⟩
      · intro q some_left
        rw [performed.transit] at some_left
        rcases performed.woken with ⟨processors, -⟩ | ⟨-, processors⟩
        · rw [processors]
          exact sound.transit q some_left
        · rw [processors]
          exact transit_set sound.transit here (fun mem => Bool.noConfusion mem) q some_left
      · rcases performed.woken with ⟨processors, -⟩ | ⟨-, processors⟩
        · rcases kept.alarmed with early | ⟨timestamp, mem⟩
          · exact .inl (performed.timed early)
          · exact .inr ⟨timestamp, processors ▸ mem⟩
        · exact kept.alarmed.set performed.timed here (fun _ => Activity.noConfusion) processors
      · rcases performed.woken with ⟨processors, less⟩ | ⟨more, processors⟩
        · apply kept.manned.fewer performed.threads performed.activate performed.activeCallNum
            performed.callThreadNum less
          · exact Nat.le_of_eq (by rw [processors])
          · rw [processors]
            exact id
        · exact kept.manned.enqueue performed.threads performed.activate performed.activeCallNum
            performed.callThreadNum more here processors rfl
      · intro q some_left
        exact .inl (performed.transit q ▸ some_left)
  | wake p chosen =>
    rw [next] at stepped
    split at stepped
    · rename_i flag interrupt here
      split at stepped
      · cases stepped
      rename_i threads woken
      rw [← some.inj stepped]
      refine ⟨lists, .quiet ⟨⟨sound.held, sound.live, ?_⟩, ?_, kept.manned.wakeCall here woken⟩ rfl
        (fun _ => Action.noConfusion) rfl, other_step fun _ => Action.noConfusion⟩
      · apply transit_set sound.transit here
        intro mem
        cases flag <;> cases interrupt <;> first | rfl | cases mem
      · exact kept.alarmed.set id here (fun _ => Activity.noConfusion) rfl
    · rename_i interrupt here
      rw [← some.inj stepped]
      refine ⟨lists, .quiet ⟨⟨sound.held, sound.live, ?_⟩, ?_, kept.manned.wakeActivate here⟩ rfl
        (fun _ => Action.noConfusion) rfl, other_step fun _ => Action.noConfusion⟩
      · apply transit_set sound.transit here
        intro mem
        cases interrupt <;> first | rfl | cases mem
      · exact kept.alarmed.set id here (fun _ => Activity.noConfusion) rfl
    · cases stepped
  | expire p timestamp =>
    rw [next] at stepped
    split at stepped
    case isFalse => cases stepped
    case isTrue possible =>
      obtain ⟨here, -⟩ := possible
      obtain ⟨bound, -⟩ := List.getElem?_eq_some_iff.mp here
      rw [← some.inj stepped]
      refine ⟨lists, .quiet ⟨⟨?_, sound.live, ?_⟩, ?_, ?_⟩ rfl (fun _ => Action.noConfusion) rfl,
        other_step fun _ => Action.noConfusion⟩
      · exact ⟨sound.held.queued, sound.held.pending_iff, sound.held.delayed_iff, sound.held.num,
          sound.held.internal, sound.held.sorted⟩
      · exact transit_set sound.transit here fun mem => Bool.noConfusion mem
      · exact .inr ⟨timestamp, List.mem_set bound _⟩
      · exact kept.manned.quiet rfl rfl rfl rfl (Int.le_refl _) here rfl rfl rfl
  | interrupt p =>
    rw [next] at stepped
    split at stepped
    · rename_i timestamp here
      obtain ⟨lists', step, -⟩ := delayedCallInterrupt_stepped kept here stepped
      exact ⟨lists', step, other_step fun _ => Action.noConfusion⟩
    · rename_i here
      obtain ⟨lists', step⟩ := enqueueExpired_stepped kept here stepped
      exact ⟨lists', step, other_step fun _ => Action.noConfusion⟩
    · cases stepped
  | thread i =>
    rw [next] at stepped
    split at stepped
    · rename_i here
      exact callThreadContinue_stepped kept here ThreadState.noConfusion
        (Int.sub_zero _).symm stepped
    · rename_i call here
      exact callThreadContinue_stepped kept here ThreadState.noConfusion rfl stepped
    · cases stepped
  | activate =>
    rw [next] at stepped
    split at stepped
    · rename_i ready
      rw [← some.inj stepped]
      have calls : (callActivateThreadContinue s).calls = s.calls := by
        rw [callActivateThreadContinue]
        split <;> rfl
      have live : (callActivateThreadContinue s).live = s.live := by
        rw [callActivateThreadContinue]
        split <;> rfl
      have processors : (callActivateThreadContinue s).processors = s.processors := by
        rw [callActivateThreadContinue]
        split <;> rfl
      refine ⟨lists, .quiet ⟨⟨calls ▸ sound.held, ?_, ?_⟩, ?_, kept.manned.activateContinue ready⟩
        (congrArg Calls.entry calls) (fun _ => Action.noConfusion) rfl,
        other_step fun _ => Action.noConfusion⟩
      · rw [live]
        exact sound.live
      · rw [processors]
        exact sound.transit
      · rw [Alarmed, calls, processors]
        exact kept.alarmed
    · rename_i creating
      rw [← some.inj stepped]
      exact ⟨lists, .quiet ⟨⟨sound.held, sound.live, sound.transit⟩, kept.alarmed,
        kept.manned.create creating⟩ rfl (fun _ => Action.noConfusion) rfl,
        other_step fun _ => Action.noConfusion⟩
    · cases stepped

/-- The lists of the queues after `thread_call_init`. -/
def initLists : Head → List Entry
  | .free => (List.finRange 768).map .internal
  | _ => []

/-- Free entries are put on the free queue one after the other. -/
theorem freeQueue_queued {links : Links Node} (queued : Queued links lists) (l : List (Fin 768))
    (once : l.Nodup) (fresh : ∀ i ∈ l, ∀ h, .internal i ∉ lists h) :
    Queued (l.foldl (fun links i => enqueueTail links (.inl .free) (.inr (.internal i))) links)
      (update lists .free (lists .free ++ l.map .internal)) := by
  induction l generalizing links lists with
  | nil =>
    rw [map_nil, append_nil, Function.update_eq_self]
    exact queued
  | cons i l ih =>
    have queued' := enqueueTail_queued (h := .free) queued (fresh i mem_cons_self)
    rw [nodup_cons] at once
    have rest := ih queued' once.2 ?_
    · rw [update_self, Function.update_idem, append_assoc] at rest
      exact rest
    intro j later h mem
    by_cases same : h = .free
    · subst same
      rw [update_self, mem_append, mem_singleton] at mem
      rcases mem with mem | same
      · exact fresh j (mem_cons_of_mem _ later) _ mem
      · obtain rfl := Entry.internal.inj same
        exact once.1 later
    · rw [update_of_ne same] at mem
      exact fresh j (mem_cons_of_mem _ later) h mem

theorem initLinks_queued : Queued initLinks initLists := by
  have self_linked : Queued (⟨id, id⟩ : Links Node) (fun _ => []) :=
    ⟨fun h => ⟨⟨rfl, rfl⟩, nodup_singleton _⟩, fun mem => absurd mem not_mem_nil⟩
  have queued := freeQueue_queued self_linked (List.finRange 768) (nodup_finRange 768)
    fun _ _ _ => not_mem_nil
  have lists_eq : update (fun _ => []) .free
      ([] ++ (List.finRange 768).map Entry.internal) = initLists := by
    funext h
    by_cases same : h = .free
    · subst same
      rw [update_self, nil_append, initLists]
    rw [update_of_ne same]
    cases h with
    | free => exact absurd rfl same
    | pending => rfl
    | delayed => rfl
    | intransit p => rfl
  rw [lists_eq] at queued
  rw [initLinks]
  exact queued

theorem threadCallInit_kept (processors : ℕ) :
    Kept (threadCallInit processors) initLists := by
  have queued : Queued (threadCallInit processors).calls.links initLists := by
    simp only [threadCallInit]
    exact initLinks_queued
  have idle : ∀ call, ((threadCallInit processors).calls.entry call).status = .idle := fun _ => rfl
  refine ⟨⟨⟨queued, ?_, ?_, rfl, ?_, List.Pairwise.nil⟩, ?_, ?_⟩, ?_, ?_⟩
  · intro call
    rw [idle]
    exact ⟨fun status => Status.noConfusion status, fun mem => absurd mem not_mem_nil⟩
  · intro call
    rw [idle]
    exact ⟨fun status => Status.noConfusion status, fun mem => absurd mem not_mem_nil⟩
  · intro call mem
    obtain ⟨i, -, rfl⟩ := List.mem_map.mp mem
    exact ⟨i, rfl⟩
  · intro c h mem
    cases h with
    | free =>
      obtain ⟨i, -, same⟩ := List.mem_map.mp mem
      cases same
    | pending => cases mem
    | delayed => cases mem
    | intransit p => cases mem
  · exact fun p some_left => absurd rfl some_left
  · left
    intro first rest split
    cases split
  constructor
  case threads_num => rfl
  case active_num => rfl
  case staffed => exact fun _ _ => Int.le_refl _
  case awake => exact fun waiting => absurd waiting not_mem_nil

end Next

end Darwin.Kern.ThreadCall
