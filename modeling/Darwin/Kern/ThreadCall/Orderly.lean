import Darwin.Kern.ThreadCall.Step

/-!
# Callout entries are queued once, and cancelled for good

Each entry is on at most one queue, and its status shows where.  The timer interrupt keeps to this
as long as it finds at most one expired entry at a time.  It makes the entries it takes off the
delayed queue idle before it has put them on the pending queue, and releases the lock in between, so
that a second one can be seen idle while it is in transit.

## Main results

* `callouts_orderly`: the property, over runs, and the steps that keep it.
* `callouts_disorderly`: a run that shows an idle entry in transit.
-/

namespace Darwin.Kern.ThreadCall

open Darwin.Lib Option

/-- The queues hold these lists, each entry once and on one of them, with the status and the count
that go with them; and no freed entry is on one. -/
structure OnQueues (s : State) (lists : Head → List Entry) : Prop where
  queued : Queued s.calls.links lists
  pending : ∀ call ∈ lists .pending, (s.calls.entry call).status = .pending
  delayed : ∀ call ∈ lists .delayed, (s.calls.entry call).status = .delayed
  scheduled : ∀ call, (s.calls.entry call).status ≠ .idle ↔
    call ∈ lists .pending ∨ call ∈ lists .delayed ∨ ∃ p, call ∈ lists (.intransit p)
  num : s.calls.pendingCallNum = (lists .pending).length
  freed : ∀ c, s.live c = false → ∀ h, .external c ∉ lists h

def Orderly (s : State) : Prop := ∃ lists, OnQueues s lists

/-- If the step is the first stretch of a timer interrupt, the second delayed entry has not
expired. -/
def singleExpiry (s : State) : Action → Bool
  | .interrupt p =>
    match s.processors[p]? with
    | some (.expired timestamp) =>
      match s.calls.links.next (.inl .delayed) with
      | .inl _ => true
      | .inr first =>
        match s.calls.links.next (.inr first) with
        | .inl _ => true
        | .inr second => cmpTvalspec (s.calls.entry second).deadline timestamp > 0
    | _ => true
  | _ => true

section Settled

variable {s t u v : State} {lists lists' : Head → List Entry} {a : Action}
  {turns processors p c : ℕ} {timestamp : Tvalspec}

/-- No entry is in transit. -/
structure Settled (s : State) (lists : Head → List Entry) : Prop where
  kept : Kept s lists
  transit : ∀ p, lists (.intransit p) = []

theorem Settled.onQueues (settled : Settled s lists) : OnQueues s lists := by
  have sound := settled.kept.sound
  have held := sound.held
  constructor
  case queued => exact held.queued
  case pending => exact fun call => (held.pending_iff call).mpr
  case delayed => exact fun call => (held.delayed_iff call).mpr
  case scheduled =>
    intro call
    rw [← held.pending_iff, ← held.delayed_iff]
    simp only [settled.transit, List.not_mem_nil, exists_false, or_false]
    cases (s.calls.entry call).status <;> simp
  case num => exact held.num
  case freed =>
    intro c freed h mem
    rw [sound.live mem] at freed
    cases freed

theorem Settled.not_inTransit (settled : Settled s lists) : ¬ InTransit s c := by
  rintro ⟨p, list, ring, mem⟩
  have own := settled.kept.sound.held.queued.ring (.intransit p)
  rw [ring.unique own, settled.transit] at mem
  cases mem

theorem Settled.leavesTransit (settled : Settled s lists) (a : Action) : LeavesTransit s a := by
  cases a with
  | call p call => exact fun c _ => settled.not_inTransit
  | _ => trivial

/-- What the condition says about the delayed queue. -/
theorem singleExpiry_iff (held : Held s.calls lists)
    (here : s.processors[p]? = some (.expired timestamp)) :
    singleExpiry s (.interrupt p) = true ↔
      ∀ first second rest, lists .delayed = first :: second :: rest →
        ¬ cmpTvalspec (s.calls.entry second).deadline timestamp ≤ 0 := by
  have head := held.queued.next_head .delayed
  rw [singleExpiry, here]
  cases delayed : lists .delayed with
  | nil =>
    rw [head, delayed]
    simp
  | cons first l =>
    have split : lists .delayed = [] ++ first :: l := delayed
    rw [head, delayed, firstNode_cons]
    dsimp only
    rw [held.queued.next_elem split]
    cases l with
    | nil => simp
    | cons second rest => simp

theorem singleExpiry_of_not_expired
    (other : ∀ p timestamp, a = .interrupt p → s.processors[p]? ≠ some (.expired timestamp)) :
    singleExpiry s a = true := by
  cases a with
  | interrupt p =>
    rw [singleExpiry]
    split
    · rename_i timestamp here
      exact absurd here (other p timestamp rfl)
    · rfl
  | _ => rfl

/-- A step that meets the condition leaves no entry in transit. -/
theorem Settled.step (settled : Settled s lists) (single : singleExpiry s a = true)
    (stepped : next turns s a = some t) :
    ∃ lists', Settled t lists' ∧ Stepped s a t lists lists' ∧
      ∀ e, Takes s a t e → e ∈ lists .pending := by
  obtain ⟨lists', step, takes⟩ := next_stepped settled.kept (settled.leavesTransit a) stepped
  refine ⟨lists', ⟨step.kept, ?_⟩, step, takes⟩
  intro p
  by_contra some_left
  rcases step.transit p some_left with before | ⟨timestamp, first, second, rest, rfl, here, split,
    due⟩
  · exact before (settled.transit p)
  · exact (singleExpiry_iff settled.kept.sound.held here).mp single first second rest split due

/-- A step that does not meet the condition shows an entry in transit that is idle. -/
theorem Settled.not_orderly (settled : Settled s lists) (several : singleExpiry s a = false)
    (stepped : next turns s a = some t) : ¬ Orderly t := by
  by_cases interrupts : ∃ p timestamp, a = .interrupt p ∧
      s.processors[p]? = some (.expired timestamp)
  · obtain ⟨p, timestamp, rfl, here⟩ := interrupts
    rw [next, here] at stepped
    obtain ⟨lists', step, left⟩ := delayedCallInterrupt_stepped settled.kept here stepped
    have held := step.kept.sound.held
    rintro ⟨lists'', orderly⟩
    obtain rfl := held.queued.unique orderly.queued
    have two_due : ¬ ∀ first second rest, lists .delayed = first :: second :: rest →
        ¬ cmpTvalspec (s.calls.entry second).deadline timestamp ≤ 0 := by
      rw [← singleExpiry_iff settled.kept.sound.held here, several]
      exact Bool.false_ne_true
    push Not at two_due
    obtain ⟨first, second, rest, split, due⟩ := two_due
    obtain ⟨call, mem⟩ := List.exists_mem_of_ne_nil _ (left first second rest split due)
    have idle : (t.calls.entry call).status = .idle := by
      apply held.idle
      · exact fun pending => absurd (held.queued.apart pending mem) Head.noConfusion
      · exact fun delayed => absurd (held.queued.apart delayed mem) Head.noConfusion
    exact (orderly.scheduled call).mpr (.inr (.inr ⟨p, mem⟩)) idle
  · have single : singleExpiry s a = true := by
      apply singleExpiry_of_not_expired
      intro p timestamp same here
      exact interrupts ⟨p, timestamp, same, here⟩
    rw [several] at single
    cases single

theorem settled_of_run
    (run : Run (next turns) (fun s a => singleExpiry s a = true) (threadCallInit processors) s) :
    ∃ lists, Settled s lists := by
  have start : ∃ lists, Settled (threadCallInit processors) lists :=
    ⟨initLists, threadCallInit_kept processors, fun _ => rfl⟩
  have step : ∀ {t u a}, (∃ lists, Settled t lists) → singleExpiry t a = true →
      next turns t a = some u → ∃ lists, Settled u lists := by
    rintro t u a ⟨lists, settled⟩ single stepped
    obtain ⟨lists', settled', -⟩ := settled.step single stepped
    exact ⟨lists', settled'⟩
  exact run.invariant start step

/-- An entry that was cancelled is on no queue until it is entered again. -/
theorem Settled.cancelled (settled : Settled s lists)
    (cancels : next turns s (.call p (.cancel c)) = some t)
    (run : Run (next turns) (fun s a => singleExpiry s a = true ∧ ¬ a.Enters c) t u) :
    ∃ lists, Settled u lists ∧ ∀ h, .external c ∉ lists h := by
  have start : ∃ lists, Settled t lists ∧ ∀ h, .external c ∉ lists h := by
    obtain ⟨lists', settled', -⟩ := settled.step rfl cancels
    refine ⟨lists', settled', ?_⟩
    rw [next] at cancels
    split at cancels
    case isFalse => cases cancels
    case isTrue =>
      obtain ⟨lists'', performed, off⟩ :=
        threadCallCancel_performed (c := c) (p := p) settled.kept.sound
      have t_eq : threadCallCancel s c = t := some.inj cancels
      rw [t_eq] at performed
      obtain rfl := settled'.kept.sound.held.queued.unique performed.held.queued
      exact off settled.not_inTransit
  have step : ∀ {u v a}, (∃ lists, Settled u lists ∧ ∀ h, .external c ∉ lists h) →
      (singleExpiry u a = true ∧ ¬ a.Enters c) → next turns u a = some v →
        ∃ lists, Settled v lists ∧ ∀ h, .external c ∉ lists h := by
    rintro u v a ⟨lists, settled, off⟩ ⟨single, not_entered⟩ stepped
    obtain ⟨lists', settled', step, -⟩ := settled.step single stepped
    refine ⟨lists', settled', ?_⟩
    intro h mem
    rcases step.came mem with ⟨h, before⟩ | entered
    · exact off h before
    · exact not_entered entered
  exact run.invariant start step

/-- In every run in which each timer interrupt finds at most one expired entry, the queues and the
status of the entries agree, and after an entry is cancelled no callout thread takes it until it is
entered again.  A step that ends such a run by finding more breaks the agreement. -/
theorem callouts_orderly
    (run : Run (next turns) (fun s a => singleExpiry s a = true) (threadCallInit processors) s) :
    Orderly s ∧ (∀ a t, next turns s a = some t → (Orderly t ↔ singleExpiry s a = true)) ∧
      ∀ p c t u v a, next turns s (.call p (.cancel c)) = some t →
        Run (next turns) (fun s a => singleExpiry s a = true ∧ ¬ a.Enters c) t u →
          next turns u a = some v → ¬ Takes u a v (.external c) := by
  obtain ⟨lists, settled⟩ := settled_of_run run
  refine ⟨⟨lists, settled.onQueues⟩, ?_, ?_⟩
  · intro a t stepped
    constructor
    · intro orderly
      by_contra several
      exact settled.not_orderly (Bool.not_eq_true _ ▸ several) stepped orderly
    · intro single
      obtain ⟨lists', settled', -⟩ := settled.step single stepped
      exact ⟨lists', settled'.onQueues⟩
  · intro p c t u v a cancels later stepped taken
    obtain ⟨lists', settled', off⟩ := settled.cancelled cancels later
    obtain ⟨i, rfl, -⟩ := id taken
    obtain ⟨lists'', -, -, takes⟩ := settled'.step rfl stepped
    exact off .pending (takes _ taken)

/-- An entry is pending, with a callout thread about to run, and is cancelled. -/
def cancelActions : List Action :=
  [.activate, .call 0 (.allocate 1 5 0), .call 0 (.enter 1), .wake 0 0, .wake 0 0, .activate,
    .activate]

theorem callouts_orderly_cancel :
    ∃ s t v, runActions (guarded (next 10) fun s a => singleExpiry s a = true) (threadCallInit 1)
        cancelActions = some s ∧
      next 10 s (.call 0 (.cancel 1)) = some t ∧ next 10 t (.thread 0) = some v ∧
      Orderly s ∧ ¬ Takes t (.thread 0) v (.external 1) := by
  have possible : ((runActions (guarded (next 10) fun s a => singleExpiry s a = true)
      (threadCallInit 1) cancelActions).bind fun s =>
        (next 10 s (.call 0 (.cancel 1))).bind fun t => next 10 t (.thread 0)).isSome = true := by
    decide +kernel
  obtain ⟨v, reached⟩ := isSome_iff_exists.mp possible
  obtain ⟨s, taken, reached⟩ := bind_eq_some_iff.mp reached
  obtain ⟨t, cancels, stepped⟩ := bind_eq_some_iff.mp reached
  have orderly := callouts_orderly (run_of_guarded taken)
  exact ⟨s, t, v, taken, cancels, stepped, orderly.1,
    orderly.2.2 0 1 t t v (.thread 0) cancels .start stepped⟩

/-- Two delayed entries with one deadline. -/
def disorderlyActions : List Action :=
  [.call 0 (.allocate 1 5 0), .call 0 (.allocate 2 6 0), .call 0 (.enterDelayed 1 ⟨10, 0⟩),
    .call 0 (.enterDelayed 2 ⟨10, 0⟩), .expire 0 ⟨10, 0⟩, .interrupt 0]

/-- When the timer interrupt first releases the lock, the second entry is idle and in transit. -/
theorem callouts_disorderly :
    ∃ s, Run (next 10) (fun _ _ => True) (threadCallInit 1) s ∧ ¬ Orderly s := by
  have reached : (runActions (next 10) (threadCallInit 1) disorderlyActions).any (fun s =>
      decide (s.calls.links.next (.inl (.intransit 0)) = .inr (.external 2) ∧
        (s.calls.entry (.external 2)).status = .idle)) = true := by
    decide +kernel
  obtain ⟨s, taken, shown⟩ := (any_eq_true _ _).mp reached
  obtain ⟨first, idle⟩ := of_decide_eq_true shown
  refine ⟨s, run_of_runActions taken, ?_⟩
  rintro ⟨lists, orderly⟩
  have mem := orderly.queued.mem_of_next_head first
  exact (orderly.scheduled _).mpr (.inr (.inr ⟨0, mem⟩)) idle

end Settled

end Darwin.Kern.ThreadCall
