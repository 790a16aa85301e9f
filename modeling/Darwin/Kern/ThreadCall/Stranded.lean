import Darwin.Kern.ThreadCall.Step

/-!
# No callout is stranded

A pending entry has a callout thread that will see it, or a wake-up that will get one, and the timer
is set for the delayed entries.  This holds in every run in which no entry is entered or freed while
a timer interrupt has it in transit: there it is idle to look at, and an entry that is put on a
second queue takes the links of the first one with it.

## Main results

* `callouts_not_stranded`: the property, over runs.
* `callouts_stranded`: a run that leaves a pending entry with every callout thread waiting.
-/

namespace Darwin.Kern.ThreadCall

open Darwin.Lib

/-- A wake-up of a callout thread or of the activate thread is still to be issued. -/
def Activity.owesWakeup : Activity → Bool
  | .wakingCall .. | .wakingActivate _ => true
  | _ => false

/-- The timer has expired, and its function has not returned. -/
def Activity.servesTimer : Activity → Bool
  | .expired _ => true
  | activity => activity.inInterrupt

structure NotStranded (s : State) : Prop where
  /-- Some callout thread can run, or the activate thread can, or a wake-up is due. -/
  pending : s.calls.links.next (.inl .pending) ≠ .inl .pending →
    .ready ∈ s.threads ∨ s.activate ≠ .waiting ∨
      ∃ activity ∈ s.processors, activity.owesWakeup = true
  /-- The timer is set to a time not later than the first deadline. -/
  delayed : s.calls.links.next (.inl .delayed) ≠ .inl .delayed →
    (∀ activity ∈ s.processors, activity.servesTimer = false) →
      ∃ first deadline, s.calls.links.next (.inl .delayed) = .inr first ∧
        s.calls.timer = some deadline ∧
        cmpTvalspec deadline (s.calls.entry first).deadline ≤ 0

section Kept

variable {s : State} {lists : Head → List Entry} {turns processors : ℕ}

/-- If all callout threads are in a function, they are all active. -/
theorem countP_isRunning_eq_length {threads : List ThreadState} (none_ready : .ready ∉ threads)
    (none_waits : .waiting ∉ threads) :
    threads.countP ThreadState.isRunning = threads.length := by
  apply List.countP_eq_length.mpr
  intro thread mem
  cases thread with
  | ready => exact absurd mem none_ready
  | waiting => exact absurd mem none_waits
  | running call => rfl

theorem Kept.notStranded (kept : Kept s lists) : NotStranded s := by
  have sound := kept.sound
  constructor
  case pending =>
    intro some_pending
    by_contra stranded
    simp only [not_or, not_not, not_exists, not_and, Bool.not_eq_true] at stranded
    obtain ⟨none_ready, waits, none_due⟩ := stranded
    have none_left : ∀ activity ∈ s.processors, activity.wakesActivate = false := by
      intro activity mem
      have none_owed := none_due activity mem
      cases activity <;> first | rfl | cases none_owed
    have not_empty : lists .pending ≠ [] := fun empty =>
      some_pending ((sound.held.queued.empty_iff .pending).mpr empty)
    have some_left := List.length_pos_iff.mpr not_empty
    have num := sound.held.num
    by_cases one_waits : .waiting ∈ s.threads
    · -- Nobody is about to run or to be woken, so nothing is pending.
      have enough := kept.manned.awake one_waits
      have no_thread : s.threads.countP ThreadState.isReady = 0 := by
        apply List.countP_eq_zero.mpr
        intro thread mem
        cases thread with
        | ready => exact absurd mem none_ready
        | waiting => exact Bool.noConfusion
        | running call => exact Bool.noConfusion
      have no_wake : s.processors.countP Activity.wakesCall = 0 := by
        apply List.countP_eq_zero.mpr
        intro activity mem
        have none_owed := none_due activity mem
        cases activity <;> first | exact Bool.noConfusion | cases none_owed
      omega
    · -- All threads are active, and the activate thread has found them enough.
      have enough := kept.manned.staffed waits none_left
      have threads := kept.manned.threads_num
      have active := kept.manned.active_num
      rw [countP_isRunning_eq_length none_ready one_waits] at active
      rw [waits, if_neg ActivateState.noConfusion] at threads
      omega
  case delayed =>
    intro some_delayed no_interrupt
    rcases kept.alarmed with timed | ⟨timestamp, mem⟩
    · have first := sound.held.queued.next_head .delayed
      cases delayed : lists .delayed with
      | nil => exact absurd ((sound.held.queued.empty_iff .delayed).mpr delayed) some_delayed
      | cons call rest =>
        obtain ⟨deadline, set_to, early⟩ := timed call rest delayed
        rw [delayed, firstNode_cons] at first
        exact ⟨call, deadline, first, set_to, early⟩
    · exact absurd (no_interrupt _ mem) Bool.noConfusion

/-- In every run whose steps neither enter nor free an entry in transit, no callout is stranded. -/
theorem callouts_not_stranded
    (run : Run (next turns) LeavesTransit (threadCallInit processors) s) : NotStranded s := by
  have start : ∃ lists, Kept (threadCallInit processors) lists := ⟨_, threadCallInit_kept processors⟩
  have step : ∀ {t u a}, (∃ lists, Kept t lists) → LeavesTransit t a →
      next turns t a = some u → ∃ lists, Kept u lists := by
    rintro t u a ⟨lists, kept⟩ leaves stepped
    obtain ⟨lists', step, -⟩ := next_stepped kept leaves stepped
    exact ⟨lists', step.kept⟩
  have kept : ∃ lists, Kept s lists := run.invariant start step
  obtain ⟨lists, kept⟩ := kept
  exact kept.notStranded

/-- A function is scheduled while the activate thread waits. -/
theorem callouts_not_stranded_func :
    ∃ s, runActions (next 2) (threadCallInit 1) [.activate, .call 0 (.func 5 7 true)] = some s ∧
      NotStranded s := by
  have possible : (runActions (next 2) (threadCallInit 1)
      [.activate, .call 0 (.func 5 7 true)]).isSome = true := by
    decide +kernel
  obtain ⟨s, taken⟩ := Option.isSome_iff_exists.mp possible
  refine ⟨s, taken, callouts_not_stranded (run_of_forall taken ?_)⟩
  intro a mem u
  simp only [List.mem_cons, List.not_mem_nil, or_false] at mem
  rcases mem with rfl | rfl
  · trivial
  · rintro c (entered | freed)
    · exact absurd entered id
    · exact absurd freed id

/-- Two entries with one deadline; the second is entered while it is in transit, then cancelled, and
its function is cancelled. -/
def strandingActions : List Action :=
  [.activate, .call 0 (.allocate 1 5 0), .call 0 (.allocate 2 6 0),
    .call 0 (.enterDelayed 1 ⟨10, 0⟩), .call 0 (.enterDelayed 2 ⟨10, 0⟩),
    .expire 0 ⟨10, 0⟩, .interrupt 0, .wake 0 0, .wake 0 0, .activate, .activate, .activate,
    .thread 0,
    .call 1 (.enter 2), .wake 1 0, .wake 1 0, .activate, .activate, .activate,
    .interrupt 0, .wake 0 0, .wake 0 0, .activate, .activate, .activate,
    .call 1 (.cancel 2), .call 1 (.funcCancel 6 0 true), .thread 1, .thread 2, .thread 0]

/-- The pending queue is not empty, but every callout thread waits and nobody will wake one. -/
theorem callouts_stranded :
    ∃ s, Run (next 10) (fun _ _ => True) (threadCallInit 2) s ∧ ¬ NotStranded s := by
  have reached : (runActions (next 10) (threadCallInit 2) strandingActions).any (fun s =>
      decide (s.calls.links.next (.inl .pending) ≠ .inl .pending ∧ .ready ∉ s.threads ∧
        s.activate = .waiting ∧
        ∀ activity ∈ s.processors, activity.owesWakeup = false)) = true := by
    decide +kernel
  obtain ⟨s, taken, shown⟩ := (Option.any_eq_true _ _).mp reached
  obtain ⟨some_pending, none_ready, waits, none_due⟩ := of_decide_eq_true shown
  refine ⟨s, run_of_runActions taken, ?_⟩
  intro kept
  rcases kept.pending some_pending with ready | runs | ⟨activity, mem, due⟩
  · exact none_ready ready
  · exact runs waits
  · rw [none_due activity mem] at due
    cases due

end Kept

end Darwin.Kern.ThreadCall
