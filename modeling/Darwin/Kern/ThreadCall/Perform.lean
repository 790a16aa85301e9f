import Darwin.Kern.ThreadCall.Held

/-!
# The public callout routines

What a call of a public routine does, as long as it neither enters nor frees an entry that a timer
interrupt has in transit from the delayed queue to the pending queue.

## Main results

* `performCall_performed`: the effect of any call.
-/

namespace Darwin.Kern.ThreadCall

open List Option
open Function (update update_of_ne update_self)
open Darwin.Lib

/-- The call schedules this external entry. -/
def Call.Enters (c : ℕ) : Call → Prop
  | .enter c' | .enterSpec c' _ | .enterDelayed c' _ | .enterSpecDelayed c' _ _ => c' = c
  | _ => False

/-- The call frees this external entry. -/
def Call.Frees (c : ℕ) : Call → Prop
  | .free c' => c' = c
  | _ => False

/-- The deadline of the entry that the call puts on the delayed queue, if it does. -/
def Call.schedules (s : State) : Call → Option Tvalspec
  | .funcDelayed _ _ deadline => some (if badTvalspec deadline then tvalspecZero else deadline)
  | .enterDelayed c deadline | .enterSpecDelayed c _ deadline =>
    if (s.calls.entry (.external c)).status = .idle then
      some (if badTvalspec deadline then tvalspecZero else deadline)
    else none
  | _ => none

/-- The processor is in a timer interrupt, after its first stretch under the lock. -/
def Activity.inInterrupt : Activity → Bool
  | .wakingCall _ interrupt | .wakingActivate interrupt => interrupt
  | .relocking => true
  | .free | .expired _ => false

/-- The queues hold these lists, an entry that is on one is allocated, and only a processor in a
timer interrupt has entries in transit. -/
structure Sound (s : State) (lists : Head → List Entry) : Prop where
  held : Held s.calls lists
  live : ∀ {c h}, .external c ∈ lists h → s.live c = true
  transit : ∀ p, lists (.intransit p) ≠ [] →
    ∃ activity, s.processors[p]? = some activity ∧ activity.inInterrupt = true

/-- The timer is set, to no later than the first deadline. -/
def Timed (s : Calls) (lists : Head → List Entry) : Prop :=
  ∀ first rest, lists .delayed = first :: rest →
    ∃ deadline, s.timer = some deadline ∧ cmpTvalspec deadline (s.entry first).deadline ≤ 0

section Timed

variable {s t : Calls} {lists lists' : Head → List Entry}

/-- The timer is early enough as long as entries only leave the delayed queue. -/
theorem Timed.sublist (timed : Timed s lists) (held : Held s lists)
    (less : (lists' .delayed).Sublist (lists .delayed)) (timer : t.timer = s.timer)
    (deadline : ∀ e ∈ lists' .delayed, (t.entry e).deadline = (s.entry e).deadline) :
    Timed t lists' := by
  intro first rest split
  have kept : first ∈ lists' .delayed := split ▸ mem_cons_self
  have mem : first ∈ lists .delayed := less.subset kept
  cases delayed : lists .delayed with
  | nil =>
    rw [delayed] at mem
    cases mem
  | cons e l =>
    obtain ⟨d, set_to, early⟩ := timed e l delayed
    refine ⟨d, timer.trans set_to, ?_⟩
    rw [deadline first kept]
    have order := held.sorted
    rw [delayed] at order mem
    rcases mem_cons.mp mem with rfl | later
    · exact early
    · exact cmpTvalspec_trans early ((pairwise_cons.mp order).1 first later)

end Timed

/-- The delayed queue after a step that puts an entry with this deadline on it, or none. -/
inductive Reordered (t : Calls) (l l' : List Entry) : Option Tvalspec → Prop
  | fewer : l'.Sublist l → Reordered t l l' none
  | more {e : Entry} {k₁ k₂ : List Entry} : l = k₁ ++ k₂ → l' = k₁ ++ e :: k₂ → e ∉ l →
    Fits (fun e => (t.entry e).deadline) (t.entry e).deadline k₁ k₂ →
      Reordered t l l' (some (t.entry e).deadline)

/-- What a call of a public routine does. -/
structure Performed (s t : State) (lists lists' : Head → List Entry) (p : ℕ) (call : Call) :
    Prop where
  held : Held t.calls lists'
  live : ∀ {c h}, .external c ∈ lists' h → t.live c = true
  came : ∀ {c h}, .external c ∈ lists' h → (∃ h, .external c ∈ lists h) ∨ call.Enters c
  transit : ∀ p, lists' (.intransit p) = lists (.intransit p)
  timed : Timed s.calls lists → Timed t.calls lists'
  deadline : ∀ {e h}, e ∈ lists h → h ≠ .free →
    (t.calls.entry e).deadline = (s.calls.entry e).deadline
  delayed : Reordered t.calls (lists .delayed) (lists' .delayed) (call.schedules s)
  threads : t.threads = s.threads
  activate : t.activate = s.activate
  activeCallNum : t.activeCallNum = s.activeCallNum
  callThreadNum : t.callThreadNum = s.callThreadNum
  /-- One more entry is pending only if a wake-up is due. -/
  woken : (t.processors = s.processors ∧ t.calls.pendingCallNum ≤ s.calls.pendingCallNum) ∨
    t.calls.pendingCallNum = s.calls.pendingCallNum + 1 ∧
      t.processors = s.processors.set p (.wakingCall
        (decide (t.callThreadNum < t.activeCallNum + t.calls.pendingCallNum)) false)

section Performed

variable {s : State} {calls : Calls} {lists lists' : Head → List Entry} {p : ℕ} {call : Call}
  {e : Entry} {fields : CallEntry} {turns : ℕ}

theorem Performed.refl (sound : Sound s lists) (schedules : call.schedules s = none) :
    Performed s s lists lists p call where
  held := sound.held
  live := sound.live
  came {_ h} mem := .inl ⟨h, mem⟩
  transit _ := rfl
  timed timed := timed
  deadline _ _ := rfl
  delayed := schedules ▸ .fewer (List.Sublist.refl _)
  threads := rfl
  activate := rfl
  activeCallNum := rfl
  callThreadNum := rfl
  woken := .inl ⟨rfl, Int.le_refl _⟩

/-- A call that only takes entries off the queues. -/
theorem Performed.of_shrunk (sound : Sound s lists) (held : Held calls lists')
    (shrunk : Shrunk s.calls calls lists lists') (schedules : call.schedules s = none) :
    Performed s { s with calls := calls } lists lists' p call where
  held := held
  live mem := by
    obtain ⟨h, mem⟩ := shrunk.inside mem
    exact sound.live mem
  came mem := .inl (shrunk.inside mem)
  transit := shrunk.transit
  timed timed := timed.sublist sound.held shrunk.delayed shrunk.timer fun e _ => shrunk.deadline e
  deadline _ _ := shrunk.deadline _
  delayed := schedules ▸ .fewer shrunk.delayed
  threads := rfl
  activate := rfl
  activeCallNum := rfl
  callThreadNum := rfl
  woken := by
    left
    refine ⟨rfl, ?_⟩
    have less := shrunk.pending.length_le
    rw [held.num, sound.held.num]
    exact Int.ofNat_le.mpr less

/-- An entry is on no queue and ready to be scheduled. -/
structure Prepared (s u : Calls) (lists lists' : Head → List Entry) (e : Entry) : Prop where
  held : Held u lists'
  off : ∀ h, e ∉ lists' h
  subset : ∀ h, lists' h ⊆ lists h
  pending : lists' .pending = lists .pending
  delayed : lists' .delayed = lists .delayed
  transit : ∀ p, lists' (.intransit p) = lists (.intransit p)
  entry : u.entry = s.entry
  timer : u.timer = s.timer

theorem Prepared.refl {s : Calls} (held : Held s lists) (off : ∀ h, e ∉ lists h) :
    Prepared s s lists lists e :=
  ⟨held, off, fun _ => List.Subset.refl _, rfl, rfl, fun _ => rfl, rfl, rfl⟩

/-- Nothing changes on the queues when the fields of such an entry are set. -/
theorem Prepared.deadline {s u : Calls} (prepared : Prepared s u lists lists' e) {x : Entry}
    {h : Head} (mem : x ∈ lists h) (not_free : h ≠ .free) :
    ((u.setEntry e fields).entry x).deadline = (s.entry x).deadline := by
  have kept : x ∈ lists' h := by
    cases h with
    | free => exact absurd rfl not_free
    | pending => rwa [prepared.pending]
    | delayed => rwa [prepared.delayed]
    | intransit p => rwa [prepared.transit]
  have other : x ≠ e := by
    rintro rfl
    exact prepared.off h kept
  exact congrArg CallEntry.deadline ((update_of_ne other ..).trans (congrFun prepared.entry x))

/-- `_internal_call_allocate` takes the first free entry. -/
theorem internalCallAllocate_prepared {s u : Calls} (held : Held s lists)
    (found : internalCallAllocate s = some (e, u)) :
    (∃ i, e = .internal i) ∧ ∃ lists', Prepared s u lists lists' e := by
  cases free : lists .free with
  | nil =>
    rw [internalCallAllocate, dequeueHead_nil held.queued free] at found
    cases found
  | cons call l =>
    rw [internalCallAllocate, dequeueHead_cons held.queued free] at found
    obtain ⟨rfl, rfl⟩ := Prod.mk.inj (some.inj found)
    have split : lists .free = [] ++ call :: l := free
    have member : call ∈ lists .free := free ▸ mem_cons_self
    exact ⟨held.internal call member, _, remqueue_held held free (by decide) (by decide),
      held.queued.off_update split, fun h => (update_split_sublist split h).subset,
      update_of_ne (by decide) .., update_of_ne (by decide) ..,
      fun p => update_of_ne (by simp) .., rfl, rfl⟩

/-- A call that puts an entry on the pending queue and wakes a callout thread. -/
theorem Performed.of_pending (sound : Sound s lists) {u : Calls}
    (prepared : Prepared s.calls u lists lists' e) (idle : fields.status = .idle)
    (entered : ∀ c, e = .external c → s.live c = true ∧ call.Enters c)
    (schedules : call.schedules s = none) :
    Performed s
      (callThreadWake { s with calls := pendingCallEnqueue (u.setEntry e fields) e } p false)
      lists (update lists' .pending (lists' .pending ++ [e])) p call := by
  have filled := prepared.held.setEntry prepared.off idle
  have held := pendingCallEnqueue_held filled prepared.off
  have moved := pendingCallEnqueue_moved (u.setEntry e fields) e
  have origin : ∀ {x h}, x ∈ update lists' .pending (lists' .pending ++ [e]) h →
      (∃ h, x ∈ lists h) ∨ x = e := by
    intro x h mem
    by_cases same : h = .pending
    · subst same
      rw [update_self, mem_append, mem_singleton] at mem
      rcases mem with mem | same
      · exact .inl ⟨_, prepared.subset _ mem⟩
      · exact .inr same
    · rw [update_of_ne same] at mem
      exact .inl ⟨_, prepared.subset _ mem⟩
  have num : (pendingCallEnqueue (u.setEntry e fields) e).pendingCallNum =
      s.calls.pendingCallNum + 1 := by
    rw [held.num, sound.held.num, update_self, prepared.pending, length_append,
      length_singleton, Int.natCast_add]
    rfl
  constructor
  case held => exact held
  case live =>
    intro c h mem
    rcases origin mem with ⟨h, mem⟩ | same
    · exact sound.live mem
    · exact (entered c same.symm).1
  case came =>
    intro c h mem
    rcases origin mem with old | same
    · exact .inl old
    · exact .inr (entered c same.symm).2
  case transit =>
    intro q
    rw [update_of_ne (by simp), prepared.transit]
  case timed =>
    intro timed
    apply timed.sublist sound.held
    · rw [update_of_ne (by decide), prepared.delayed]
    · exact prepared.timer
    · intro x mem
      rw [update_of_ne (by decide), prepared.delayed] at mem
      exact (moved.deadline x).trans (prepared.deadline mem (by decide))
  case deadline =>
    intro x h mem not_free
    exact (moved.deadline x).trans (prepared.deadline mem not_free)
  case delayed =>
    rw [schedules, update_of_ne (by decide), prepared.delayed]
    exact .fewer (List.Sublist.refl _)
  case threads => rfl
  case activate => rfl
  case activeCallNum => rfl
  case callThreadNum => rfl
  case woken => exact .inr ⟨num, rfl⟩

/-- A call that puts an entry on the delayed queue. -/
theorem Performed.of_delayed (sound : Sound s lists) {u : Calls}
    (prepared : Prepared s.calls u lists lists' e) (idle : fields.status = .idle)
    (entered : ∀ c, e = .external c → s.live c = true ∧ call.Enters c)
    (schedules : call.schedules s = some fields.deadline)
    (found : delayedCallSchedule turns (u.setEntry e fields) e = some calls) :
    ∃ lists'', Performed s { s with calls := calls } lists lists'' p call := by
  have filled := prepared.held.setEntry prepared.off idle
  obtain ⟨k₁, k₂, split, fits, held, deadlines, timer⟩ :=
    delayedCallSchedule_held filled prepared.off found
  have origin : ∀ {x h}, x ∈ update lists' .delayed (k₁ ++ e :: k₂) h →
      (∃ h, x ∈ lists h) ∨ x = e := by
    intro x h mem
    by_cases same : h = .delayed
    · subst same
      rw [update_self, mem_append, mem_cons] at mem
      have old : x ∈ k₁ ++ k₂ → ∃ h, x ∈ lists h := fun mem =>
        ⟨.delayed, prepared.subset .delayed (split ▸ mem)⟩
      rcases mem with mem | same | mem
      · exact .inl (old (mem_append_left _ mem))
      · exact .inr same
      · exact .inl (old (mem_append_right _ mem))
    · rw [update_of_ne same] at mem
      exact .inl ⟨_, prepared.subset _ mem⟩
  refine ⟨_, held, ?_, ?_, ?_, ?_, ?_, ?_, rfl, rfl, rfl, rfl, ?_⟩
  · intro c h mem
    rcases origin mem with ⟨h, mem⟩ | same
    · exact sound.live mem
    · exact (entered c same.symm).1
  · intro c h mem
    rcases origin mem with old | same
    · exact .inl old
    · exact .inr (entered c same.symm).2
  · intro q
    rw [update_of_ne (by simp), prepared.transit]
  · intro timed first rest first_eq
    rw [update_self] at first_eq
    cases k₁ with
    | nil =>
      -- The new entry is the first, and the timer is set for it.
      obtain ⟨rfl, -⟩ := List.cons.inj first_eq
      refine ⟨_, timer.trans (if_pos rfl), ?_⟩
      rw [deadlines]
      exact Int.le_of_eq cmpTvalspec_self
    | cons x l =>
      obtain ⟨rfl, -⟩ := List.cons.inj first_eq
      rw [prepared.delayed] at split
      obtain ⟨d, set_to, early⟩ := timed x _ split
      have member : x ∈ lists .delayed := split ▸ mem_cons_self
      refine ⟨d, ?_, ?_⟩
      · rw [timer, if_neg (cons_ne_nil _ _)]
        exact prepared.timer.trans set_to
      · rw [deadlines, prepared.deadline member (by decide)]
        exact early
  · intro x h mem not_free
    exact (deadlines x).trans (prepared.deadline mem not_free)
  · have same : fields.deadline = (calls.entry e).deadline :=
      (congrArg CallEntry.deadline (update_self ..)).symm.trans (deadlines e).symm
    rw [schedules, same, update_self, ← prepared.delayed]
    refine .more split rfl (prepared.off .delayed) ?_
    simpa only [deadlines] using fits
  · left
    refine ⟨rfl, Int.le_of_eq ?_⟩
    rw [held.num, sound.held.num, update_of_ne (by decide), prepared.pending]

end Performed

/-- A timer interrupt has the entry in transit to the pending queue. -/
def InTransit (s : State) (c : ℕ) : Prop :=
  ∃ p list, Ring s.calls.links (.inl (.intransit p)) list ∧ .inr (.external c) ∈ list

section Calls

variable {s t : State} {lists : Head → List Entry} {p c spec func turns : ℕ} {call : Call}
  {deadline : Tvalspec}

variable (sound : Sound s lists)

include sound

/-- An idle entry that is not in transit is on no queue. -/
theorem Sound.off
    (idle : (s.calls.entry (.external c)).status = .idle) (kept : ¬ InTransit s c) (h : Head) :
    .external c ∉ lists h := by
  intro mem
  cases h with
  | free =>
    obtain ⟨i, same⟩ := sound.held.internal _ mem
    cases same
  | pending =>
    have status := (sound.held.pending_iff _).mpr mem
    rw [idle] at status
    cases status
  | delayed =>
    have status := (sound.held.delayed_iff _).mpr mem
    rw [idle] at status
    cases status
  | intransit q =>
    apply kept
    exact ⟨q, _, sound.held.queued.ring (.intransit q), mem_map_of_mem mem⟩

theorem threadCallFunc_performed {uniqueCall : Bool}
    (found : threadCallFunc turns s p func spec uniqueCall = some t) :
    ∃ lists', Performed s t lists lists' p (.func func spec uniqueCall) := by
  rw [threadCallFunc] at found
  split at found
  · cases found
  · obtain rfl : s = t := some.inj found
    exact ⟨lists, .refl sound rfl⟩
  split at found
  · cases found
  rename_i e u allocated
  obtain ⟨⟨i, rfl⟩, lists', prepared⟩ :=
    internalCallAllocate_prepared sound.held allocated
  have idle : (u.entry (.internal i)).status = .idle :=
    prepared.held.idle (prepared.off .pending) (prepared.off .delayed)
  rw [← some.inj found]
  exact ⟨_, .of_pending sound prepared idle (fun c same => by cases same) rfl⟩

theorem threadCallFuncDelayed_performed
    (found : threadCallFuncDelayed turns s func spec deadline = some t) :
    ∃ lists', Performed s t lists lists' p (.funcDelayed func spec deadline) := by
  rw [threadCallFuncDelayed] at found
  dsimp only at found
  split at found
  · cases found
  rename_i e u allocated
  obtain ⟨⟨i, rfl⟩, lists', prepared⟩ := internalCallAllocate_prepared sound.held allocated
  have idle : (u.entry (.internal i)).status = .idle :=
    prepared.held.idle (prepared.off .pending) (prepared.off .delayed)
  split at found
  · cases found
  rename_i calls scheduled
  rw [← some.inj found]
  refine Performed.of_delayed sound prepared ?_ (fun c same => by cases same) rfl scheduled
  exact idle

theorem threadCallFuncCancel_performed {cancelAll : Bool}
    (found : threadCallFuncCancel turns s func spec cancelAll = some t) :
    ∃ lists', Performed s t lists lists' p (.funcCancel func spec cancelAll) := by
  have removed : ∀ {calls result}, removeFromPendingQueue turns s.calls func spec cancelAll =
      some (calls, result) → ∃ lists', Held calls lists' ∧ Shrunk s.calls calls lists lists' := by
    intro calls result found
    rw [removeFromPendingQueue, sound.held.queued.next_head] at found
    have split : lists .pending = [] ++ lists .pending := rfl
    exact removeFromQueue_held pendingCallDequeue_dequeues sound.held split found
  rw [threadCallFuncCancel] at found
  split at found
  · cases found
  · rename_i calls pending
    obtain ⟨lists', held, shrunk⟩ := removed pending
    rw [← some.inj found]
    exact ⟨lists', .of_shrunk sound held shrunk rfl⟩
  · rename_i calls pending
    obtain ⟨lists', held, shrunk⟩ := removed pending
    split at found
    · cases found
    rename_i calls' result delayed
    rw [removeFromDelayedQueue, held.queued.next_head] at delayed
    have split : lists' .delayed = [] ++ lists' .delayed := rfl
    obtain ⟨lists'', held', shrunk'⟩ :=
      removeFromQueue_held delayedCallDequeue_dequeues held split delayed
    rw [← some.inj found]
    exact ⟨lists'', .of_shrunk sound held' (shrunk.trans shrunk') rfl⟩

theorem threadCallAllocate_performed (new : s.live c = false) :
    Performed s (threadCallAllocate s c func spec) lists lists p (.allocate c func spec) := by
  have off : ∀ h, .external c ∉ lists h := by
    intro h mem
    rw [sound.live mem] at new
    cases new
  have deadline : ∀ {e h}, e ∈ lists h →
      ((threadCallAllocate s c func spec).calls.entry e).deadline =
        (s.calls.entry e).deadline := by
    intro e h mem
    apply congrArg CallEntry.deadline
    apply update_of_ne
    rintro rfl
    exact off h mem
  constructor
  case held => exact sound.held.setEntry off rfl
  case live =>
    intro c' h mem
    have other : c' ≠ c := by
      rintro rfl
      exact off h mem
    exact (update_of_ne other ..).trans (sound.live mem)
  case came => exact fun {_ h} mem => .inl ⟨h, mem⟩
  case transit => exact fun _ => rfl
  case timed =>
    intro timed
    refine timed.sublist (t := (threadCallAllocate s c func spec).calls) sound.held
      (List.Sublist.refl _) rfl ?_
    exact fun e => deadline
  case deadline => exact fun mem _ => deadline mem
  case delayed => exact .fewer (List.Sublist.refl _)
  case threads => rfl
  case activate => rfl
  case activeCallNum => rfl
  case callThreadNum => rfl
  case woken => exact .inl ⟨rfl, Int.le_refl _⟩

theorem threadCallFree_performed (kept : ¬ InTransit s c)
    (found : threadCallFree s c = some t) : Performed s t lists lists p (.free c) := by
  rw [threadCallFree] at found
  split at found
  · cases found
  rename_i idle
  have off := sound.off (not_not.mp idle) kept
  rw [← some.inj found]
  constructor
  case held => exact sound.held
  case live =>
    intro c' h mem
    have other : c' ≠ c := by
      rintro rfl
      exact off h mem
    exact (update_of_ne other ..).trans (sound.live mem)
  case came => exact fun {_ h} mem => .inl ⟨h, mem⟩
  case transit => exact fun _ => rfl
  case timed => exact id
  case deadline => exact fun _ _ => rfl
  case delayed => exact .fewer (List.Sublist.refl _)
  case threads => rfl
  case activate => rfl
  case activeCallNum => rfl
  case callThreadNum => rfl
  case woken => exact .inl ⟨rfl, Int.le_refl _⟩

theorem enterPending_performed (live : s.live c = true)
    (kept : ¬ InTransit s c) (enters : call.Enters c) (schedules : call.schedules s = none) :
    ∃ lists', Performed s (enterPending s p c spec) lists lists' p call := by
  rw [enterPending]
  split
  case isFalse => exact ⟨lists, .refl sound schedules⟩
  case isTrue idle =>
    refine ⟨_, .of_pending sound (.refl sound.held (sound.off idle kept)) idle ?_ schedules⟩
    rintro c' ⟨⟩
    exact ⟨live, enters⟩

theorem enterDelayed_performed (live : s.live c = true)
    (kept : ¬ InTransit s c) (enters : call.Enters c)
    (schedules : call.schedules s = (Call.enterDelayed c deadline).schedules s)
    (found : enterDelayed turns s c spec deadline = some t) :
    ∃ lists', Performed s t lists lists' p call := by
  rw [enterDelayed] at found
  dsimp only at found
  split at found
  case isFalse active =>
    obtain rfl : s = t := some.inj found
    exact ⟨lists, .refl sound (schedules.trans (if_neg active))⟩
  case isTrue idle =>
    split at found
    · cases found
    rename_i calls scheduled
    rw [← some.inj found]
    refine Performed.of_delayed sound (.refl sound.held (sound.off idle kept)) ?_ ?_ ?_ scheduled
    · exact idle
    · rintro c' ⟨⟩
      exact ⟨live, enters⟩
    · exact schedules.trans (if_pos idle)

/-- `thread_call_cancel` takes the entry off the queue it is on. -/
theorem threadCallCancel_performed :
    ∃ lists', Performed s (threadCallCancel s c) lists lists' p (.cancel c) ∧
      (¬ InTransit s c → ∀ h, .external c ∉ lists' h) := by
  rw [threadCallCancel]
  cases status : (s.calls.entry (.external c)).status with
  | idle => exact ⟨lists, .refl sound rfl, fun kept h => sound.off status kept h⟩
  | pending =>
    obtain ⟨l₁, l₂, split⟩ := append_of_mem ((sound.held.pending_iff _).mp status)
    obtain ⟨lists', held, shrunk, -, off⟩ := pendingCallDequeue_dequeues.release sound.held split
    exact ⟨lists', .of_shrunk sound held shrunk rfl, fun _ h => off c h rfl⟩
  | delayed =>
    obtain ⟨l₁, l₂, split⟩ := append_of_mem ((sound.held.delayed_iff _).mp status)
    obtain ⟨lists', held, shrunk, -, off⟩ := delayedCallDequeue_dequeues.release sound.held split
    exact ⟨lists', .of_shrunk sound held shrunk rfl, fun _ h => off c h rfl⟩

/-- The effect of a call that neither enters nor frees an entry in transit. -/
theorem performCall_performed (valid : call.Valid s)
    (kept : ∀ c, call.Enters c ∨ call.Frees c → ¬ InTransit s c)
    (found : performCall turns s p call = some t) :
    ∃ lists', Performed s t lists lists' p call := by
  cases call with
  | func func spec uniqueCall => exact threadCallFunc_performed sound found
  | funcDelayed func spec deadline => exact threadCallFuncDelayed_performed sound found
  | funcCancel func spec cancelAll => exact threadCallFuncCancel_performed sound found
  | allocate c func spec =>
    rw [← some.inj found]
    exact ⟨lists, threadCallAllocate_performed sound valid⟩
  | free c => exact ⟨lists, threadCallFree_performed sound (kept c (.inr rfl)) found⟩
  | enter c =>
    rw [← some.inj found]
    exact enterPending_performed sound valid (kept c (.inl rfl)) rfl rfl
  | enterSpec c spec =>
    rw [← some.inj found]
    exact enterPending_performed sound valid (kept c (.inl rfl)) rfl rfl
  | enterDelayed c deadline =>
    exact enterDelayed_performed sound valid (kept c (.inl rfl)) rfl rfl found
  | enterSpecDelayed c spec deadline =>
    exact enterDelayed_performed sound valid (kept c (.inl rfl)) rfl rfl found
  | cancel c =>
    rw [← some.inj found]
    obtain ⟨lists', performed, -⟩ := threadCallCancel_performed (c := c) (p := p) sound
    exact ⟨lists', performed⟩

end Calls

end Darwin.Kern.ThreadCall
