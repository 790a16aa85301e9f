import Darwin.Kern.ThreadCall.Perform
import Mathlib.Data.List.Count

/-!
# The callout threads

The two counters that tell idle, active and missing callout threads apart, and the wake-ups that are
still due.  As long as no wake-up of the activate thread is due and it waits, there are enough
callout threads; and if one of them waits, the others that are about to run, or about to be woken,
are enough for the pending entries.

## Main results

* `Manned`: this invariant, and one lemma for each way in which it is kept.
-/

namespace Darwin.Kern.ThreadCall

open List ThreadState

section Lists

variable {α : Type*} {l : List α} {i : ℕ} {old new a : α}

/-- A list with the place of one element in it. -/
theorem split_of_getElem? (here : l[i]? = some old) :
    ∃ l₁ l₂, l = l₁ ++ old :: l₂ ∧ (∀ new, l.set i new = l₁ ++ new :: l₂) ∧
      l.eraseIdx i = l₁ ++ l₂ := by
  obtain ⟨bound, rfl⟩ := List.getElem?_eq_some_iff.mp here
  refine ⟨l.take i, l.drop (i + 1), ?_, ?_, eraseIdx_eq_take_drop_succ ..⟩
  · rw [getElem_cons_drop, take_append_drop]
  · intro new
    exact set_eq_take_append_cons_drop .. |>.trans (if_pos bound)

theorem mem_or_mem_set (here : l[i]? = some old) (mem : a ∈ l) : a = old ∨ a ∈ l.set i new := by
  obtain ⟨l₁, l₂, split, set_eq, -⟩ := split_of_getElem? here
  rw [set_eq]
  rw [split] at mem
  simp only [mem_append, mem_cons] at mem ⊢
  tauto

theorem mem_set (mem : a ∈ l.set i new) : a = new ∨ a ∈ l :=
  (mem_or_eq_of_mem_set mem).symm

theorem countP_set (test : α → Bool) (new : α) (here : l[i]? = some old) :
    (l.set i new).countP test + (if test old then 1 else 0) =
      l.countP test + if test new then 1 else 0 := by
  obtain ⟨l₁, l₂, split, set_eq, -⟩ := split_of_getElem? here
  rw [set_eq, split]
  simp only [countP_append, countP_cons]
  omega

theorem countP_eraseIdx (test : α → Bool) (here : l[i]? = some old) :
    (l.eraseIdx i).countP test + (if test old then 1 else 0) = l.countP test := by
  obtain ⟨l₁, l₂, split, -, erase_eq⟩ := split_of_getElem? here
  rw [erase_eq, split]
  simp only [countP_append, countP_cons]
  omega

end Lists

section Manned

/-- The processor is about to wake a callout thread. -/
def Activity.wakesCall : Activity → Bool
  | .wakingCall .. => true
  | _ => false

/-- The processor is about to wake the activate thread, at once or after a callout thread. -/
def Activity.wakesActivate : Activity → Bool
  | .wakingCall wakeActivateThread _ => wakeActivateThread
  | .wakingActivate _ => true
  | _ => false

def ThreadState.isReady : ThreadState → Bool
  | .ready => true
  | _ => false

def ThreadState.isRunning : ThreadState → Bool
  | .running _ => true
  | _ => false

structure Manned (s : State) : Prop where
  threads_num : s.callThreadNum = s.threads.length + if s.activate = .creating then 1 else 0
  active_num : s.activeCallNum = s.threads.countP isRunning
  staffed : s.activate = .waiting → (∀ activity ∈ s.processors, activity.wakesActivate = false) →
      s.activeCallNum + s.calls.pendingCallNum ≤ s.callThreadNum
  awake : .waiting ∈ s.threads → s.calls.pendingCallNum ≤
    s.threads.countP isReady + s.processors.countP Activity.wakesCall

variable {s t : State} {p i : ℕ} {old new : Activity}

theorem not_wakesActivate_set (here : s.processors[p]? = some old)
    (quiet : old.wakesActivate = false)
    (none_left : ∀ activity ∈ s.processors.set p new, activity.wakesActivate = false) :
    ∀ activity ∈ s.processors, activity.wakesActivate = false := by
  intro activity mem
  rcases mem_or_mem_set here mem with rfl | mem
  · exact quiet
  · exact none_left activity mem

variable (manned : Manned s) (threads : t.threads = s.threads) (activate : t.activate = s.activate)
  (active : t.activeCallNum = s.activeCallNum) (thread_num : t.callThreadNum = s.callThreadNum)
  (less : t.calls.pendingCallNum ≤ s.calls.pendingCallNum)

include manned threads activate active thread_num less

/-- The same threads, no more pending entries, and no wake-up gone. -/
theorem Manned.fewer
    (wakes : s.processors.countP Activity.wakesCall ≤ t.processors.countP Activity.wakesCall)
    (quiet : (∀ activity ∈ t.processors, activity.wakesActivate = false) → ∀ activity ∈ s.processors, activity.wakesActivate = false) :
    Manned t := by
  constructor
  case threads_num => rw [thread_num, threads, activate, manned.threads_num]
  case active_num => rw [active, threads, manned.active_num]
  case staffed =>
    intro waiting none_left
    have enough := manned.staffed (activate ▸ waiting) (quiet none_left)
    rw [active, thread_num]
    omega
  case awake =>
    intro waiting
    rw [threads] at waiting ⊢
    have enough := manned.awake waiting
    omega

/-- A processor goes from one activity without wake-ups to another. -/
theorem Manned.quiet (here : s.processors[p]? = some old)
    (processors : t.processors = s.processors.set p new) (old_call : old.wakesCall = false)
    (old_activate : old.wakesActivate = false) : Manned t := by
  apply manned.fewer threads activate active thread_num less
  · have count := countP_set Activity.wakesCall new here
    rw [processors]
    rw [old_call] at count
    simp only [Bool.false_eq_true, if_false] at count
    omega
  · rw [processors]
    exact not_wakesActivate_set here old_activate

omit manned threads activate active thread_num less

variable {interrupt : Bool} {thread : ThreadState}

/-- One more entry is pending, and `_call_thread_wake` is under way. -/
theorem Manned.enqueue (manned : Manned s) (threads : t.threads = s.threads)
    (activate : t.activate = s.activate) (active : t.activeCallNum = s.activeCallNum)
    (thread_num : t.callThreadNum = s.callThreadNum)
    (more : t.calls.pendingCallNum = s.calls.pendingCallNum + 1)
    (here : s.processors[p]? = some old)
    (processors : t.processors = s.processors.set p (.wakingCall
      (decide (t.callThreadNum < t.activeCallNum + t.calls.pendingCallNum)) interrupt))
    (old_call : old.wakesCall = false) : Manned t := by
  constructor
  case threads_num => rw [thread_num, threads, activate, manned.threads_num]
  case active_num => rw [active, threads, manned.active_num]
  case staffed =>
    intro _ none_left
    have bound : p < s.processors.length := (List.getElem?_eq_some_iff.mp here).1
    have own := none_left _ (processors ▸ List.mem_set bound _)
    rw [Activity.wakesActivate, decide_eq_false_iff_not] at own
    omega
  case awake =>
    intro waiting
    rw [threads] at waiting ⊢
    have enough := manned.awake waiting
    have count := countP_set Activity.wakesCall (.wakingCall
      (decide (t.callThreadNum < t.activeCallNum + t.calls.pendingCallNum)) interrupt) here
    rw [← processors, old_call] at count
    simp only [Bool.false_eq_true, if_false, Activity.wakesCall, if_true] at count
    omega

theorem afterWake_quiet :
    (afterWake interrupt).wakesCall = false ∧ (afterWake interrupt).wakesActivate = false := by
  cases interrupt <;> exact ⟨rfl, rfl⟩

/-- `thread_wakeup_one` on the callout threads: if one of them waits, one more can run. -/
theorem threadWakeupOne_spec {threads threads' : List ThreadState} {chosen : ℕ}
    (woken : threadWakeupOne threads chosen = some threads') :
    threads'.length = threads.length ∧
      threads'.countP isRunning = threads.countP isRunning ∧
      (.waiting ∈ threads' → .waiting ∈ threads ∧
        threads'.countP isReady = threads.countP isReady + 1) := by
  rw [threadWakeupOne] at woken
  split at woken
  case isFalse none_waits =>
    obtain rfl : threads = threads' := Option.some.inj woken
    exact ⟨rfl, rfl, fun waits => absurd waits none_waits⟩
  case isTrue waits =>
    split at woken
    case isFalse => cases woken
    case isTrue here =>
      rw [← Option.some.inj woken]
      have running := countP_set isRunning .ready here
      have ready := countP_set isReady .ready here
      simp only [isRunning, isReady, Bool.false_eq_true, if_false,
        if_true] at running ready
      exact ⟨length_set .., by omega, fun _ => ⟨waits, by omega⟩⟩

variable (manned : Manned s)

include manned

/-- A callout thread is woken. -/
theorem Manned.wakeCall {flag : Bool} {chosen : ℕ}
    {threads : List ThreadState} (here : s.processors[p]? = some (.wakingCall flag interrupt))
    (woken : threadWakeupOne s.threads chosen = some threads) :
    Manned { s with
      threads := threads
      processors := s.processors.set p
        (if flag then .wakingActivate interrupt else afterWake interrupt) } := by
  obtain ⟨length, running, ready⟩ := threadWakeupOne_spec woken
  constructor
  case threads_num => exact manned.threads_num.trans (by rw [length])
  case active_num => exact manned.active_num.trans (by rw [running])
  case staffed =>
    intro waiting none_left
    have bound : p < s.processors.length := (List.getElem?_eq_some_iff.mp here).1
    have own := none_left _ (List.mem_set bound _)
    apply manned.staffed waiting (not_wakesActivate_set here ?_ none_left)
    cases flag with
    | false => rfl
    | true => cases own
  case awake =>
    intro waiting
    obtain ⟨waited, one_more⟩ := ready waiting
    have enough := manned.awake waited
    have count := countP_set Activity.wakesCall
      (if flag then .wakingActivate interrupt else afterWake interrupt) here
    have own : (if flag then Activity.wakingActivate interrupt
        else afterWake interrupt).wakesCall = false := by
      cases flag with
      | false => exact afterWake_quiet.1
      | true => rfl
    rw [own] at count
    simp only [Bool.false_eq_true, if_false, Activity.wakesCall, if_true] at count
    dsimp only
    omega

/-- The activate thread is woken. -/
theorem Manned.wakeActivate (here : s.processors[p]? = some (.wakingActivate interrupt)) :
    Manned { s with
      activate := if s.activate = .waiting then .ready else s.activate
      processors := s.processors.set p (afterWake interrupt) } := by
  constructor
  case threads_num =>
    refine manned.threads_num.trans ?_
    cases s.activate <;> rfl
  case active_num => exact manned.active_num
  case staffed =>
    intro waiting
    split at waiting
    · cases waiting
    · contradiction
  case awake =>
    intro waiting
    have enough := manned.awake waiting
    have count := countP_set Activity.wakesCall (afterWake interrupt) here
    rw [afterWake_quiet.1] at count
    simp only [Bool.false_eq_true, if_false, Activity.wakesCall] at count
    dsimp only
    omega

/-- The activate thread runs, or creates a callout thread. -/
theorem Manned.activateContinue (ready : s.activate = .ready) :
    Manned (callActivateThreadContinue s) := by
  have num := manned.threads_num
  rw [ready, if_neg ActivateState.noConfusion] at num
  rw [callActivateThreadContinue]
  split
  case isTrue =>
    constructor
    case threads_num =>
      dsimp only
      rw [num, if_pos rfl]
      omega
    case active_num => exact manned.active_num
    case staffed => exact fun waiting => ActivateState.noConfusion waiting
    case awake => exact manned.awake
  case isFalse enough =>
    constructor
    case threads_num =>
      dsimp only
      rw [num, if_neg ActivateState.noConfusion]
    case active_num => exact manned.active_num
    case staffed =>
      intro _ _
      dsimp only
      omega
    case awake => exact manned.awake

theorem Manned.create (creating : s.activate = .creating) :
    Manned { s with threads := s.threads ++ [.ready], activate := .ready } := by
  have num := manned.threads_num
  rw [creating, if_pos rfl] at num
  constructor
  case threads_num =>
    rw [num, if_neg ActivateState.noConfusion, length_append, length_singleton]
    omega
  case active_num =>
    refine manned.active_num.trans ?_
    rw [countP_append]
    rfl
  case staffed => exact fun waiting => ActivateState.noConfusion waiting
  case awake =>
    intro waiting
    have waited : .waiting ∈ s.threads := by
      simpa using waiting
    have enough := manned.awake waited
    have count : (s.threads ++ [ready]).countP isReady =
        s.threads.countP isReady + 1 := by
      rw [countP_append]
      rfl
    dsimp only
    omega

variable (here : s.threads[i]? = some thread)

include here

/-- A callout thread takes the first pending entry.  It was about to run, or it was in a callout
function and is not counted as active any more. -/
theorem Manned.run {call : Entry} (not_waiting : thread ≠ .waiting)
    (threads : t.threads = s.threads.set i (.running call)) (activate : t.activate = s.activate)
    (processors : t.processors = s.processors)
    (active : t.activeCallNum = s.activeCallNum + if thread.isRunning then 0 else 1)
    (thread_num : t.callThreadNum = s.callThreadNum)
    (fewer : t.calls.pendingCallNum = s.calls.pendingCallNum - 1) : Manned t := by
  have running := countP_set isRunning (.running call) here
  have ready := countP_set isReady (.running call) here
  simp only [isRunning, isReady, Bool.false_eq_true, if_false,
    if_true] at running ready
  constructor
  case threads_num => rw [thread_num, threads, activate, length_set, manned.threads_num]
  case active_num =>
    rw [active, threads, manned.active_num]
    cases thread <;> simp_all [isRunning]
  case staffed =>
    intro waiting none_left
    rw [activate] at waiting
    rw [processors] at none_left
    have enough := manned.staffed waiting none_left
    omega
  case awake =>
    intro waiting
    rw [threads] at waiting ⊢
    have waited : .waiting ∈ s.threads := by
      rcases mem_set waiting with same | mem
      · cases same
      · exact mem
    have enough := manned.awake waited
    rw [processors]
    cases thread <;> simp only [if_true, Bool.false_eq_true, if_false] at ready <;> omega

/-- Nothing is pending, and a callout thread waits. -/
theorem Manned.wait (not_waiting : thread ≠ .waiting)
    (threads : t.threads = s.threads.set i .waiting) (activate : t.activate = s.activate)
    (processors : t.processors = s.processors)
    (active : t.activeCallNum = s.activeCallNum - if thread.isRunning then 1 else 0)
    (thread_num : t.callThreadNum = s.callThreadNum)
    (same : t.calls.pendingCallNum = s.calls.pendingCallNum)
    (none_pending : s.calls.pendingCallNum ≤ 0) : Manned t := by
  have running := countP_set isRunning .waiting here
  constructor
  case threads_num => rw [thread_num, threads, activate, length_set, manned.threads_num]
  case active_num =>
    rw [active, threads, manned.active_num]
    cases thread <;> simp_all [isRunning]
    omega
  case staffed =>
    intro waiting none_left
    rw [activate] at waiting
    rw [processors] at none_left
    have enough := manned.staffed waiting none_left
    omega
  case awake =>
    intro _
    omega

/-- Nothing is pending, and a callout thread ends because there are more than enough. -/
theorem Manned.retire
    (threads : t.threads = s.threads.eraseIdx i) (activate : t.activate = s.activate)
    (active : t.activeCallNum = s.activeCallNum - if thread.isRunning then 1 else 0)
    (thread_num : t.callThreadNum = s.callThreadNum - 1)
    (same : t.calls.pendingCallNum = s.calls.pendingCallNum)
    (none_pending : s.calls.pendingCallNum ≤ 0)
    (many : ¬ t.callThreadNum + 1 - t.activeCallNum ≤ callThreadMin) : Manned t := by
  have running := countP_eraseIdx isRunning here
  obtain ⟨bound, -⟩ := List.getElem?_eq_some_iff.mp here
  rw [callThreadMin] at many
  constructor
  case threads_num =>
    rw [thread_num, threads, activate, length_eraseIdx_of_lt bound, manned.threads_num]
    omega
  case active_num =>
    rw [active, threads, manned.active_num]
    cases thread <;> simp_all [isRunning]
    omega
  case staffed =>
    intro _ _
    omega
  case awake =>
    intro _
    omega

end Manned

end Darwin.Kern.ThreadCall
