import Darwin.Kern.ThreadCall.Step

/-!
# Delayed callouts, first come first served

The delayed queue is ordered by deadline.  Entries with one deadline are in the order in which they
were scheduled as long as there are no more than two of them: `_delayed_call_enqueue` stops at the
first entry with the deadline of the new one, and puts the new one before all others that have it.

## Main results

* `delayed_firstCome`: the order, over runs, and the steps that keep it.
* `delayed_lastCome`: three entries with one deadline.
-/

namespace Darwin.Kern.ThreadCall

open List Option
open Darwin.Lib

section Dates

/-- A state, the number of steps before it, and for each entry the step that last scheduled it. -/
structure Dated where
  state : State
  now : ℕ
  since : Entry → ℕ

/-- A step dates the entry that it puts on the delayed queue. -/
def nextDated (turns : ℕ) (x : Dated) (a : Action) : Option Dated :=
  match next turns x.state a with
  | none => none
  | some t =>
    some
      { state := t
        now := x.now + 1
        since := fun e =>
          if (x.state.calls.entry e).status ≠ .delayed ∧ (t.calls.entry e).status = .delayed then
            x.now
          else x.since e }

def datedInit (processors : ℕ) : Dated := ⟨threadCallInit processors, 0, fun _ => 0⟩

def Dated.deadline (x : Dated) (e : Entry) : Tvalspec := (x.state.calls.entry e).deadline

/-- By deadline, and by the time of scheduling where the deadlines are the same. -/
def Dated.Before (x : Dated) (a b : Entry) : Prop :=
  cmpTvalspec (x.deadline a) (x.deadline b) < 0 ∨
    x.deadline a = x.deadline b ∧ x.since a < x.since b

/-- The queue consists of these entries. -/
def Dated.Holds (x : Dated) (h : Head) (list : List Entry) : Prop :=
  Ring x.state.calls.links (.inl h) (list.map .inr)

/-- The delayed queue is ordered by deadline, first come first served. -/
def Dated.InOrder (x : Dated) : Prop := ∃ list, x.Holds .delayed list ∧ list.Pairwise x.Before

/-- If the step puts an entry on the delayed queue, at most one that is on it has its deadline. -/
def FewTies (x : Dated) (a : Action) : Prop :=
  ∀ deadline, a.schedules x.state = some deadline → ∀ e e',
    (x.state.calls.entry e).status = .delayed → x.deadline e = deadline →
      (x.state.calls.entry e').status = .delayed → x.deadline e' = deadline → e = e'

/-- A stretch of the timer interrupt, from `x` to `y`: it moves the first of some entries that are
in order to the end of the pending queue, and keeps the others in that order.  The first stretch
takes these entries off the delayed queue. -/
def Serves (p : ℕ) (x y : Dated) : Prop :=
  ∃ taken pending, taken.Pairwise x.Before ∧ x.Holds .pending pending ∧
    y.Holds .pending (pending ++ taken.take 1) ∧ y.Holds (.intransit p) taken.tail ∧
    ((∃ timestamp, x.state.processors[p]? = some (.expired timestamp)) ∧
      (∃ rest, x.Holds .delayed (taken ++ rest) ∧ y.Holds .delayed rest) ∨
    x.state.processors[p]? = some .relocking ∧ x.Holds (.intransit p) taken)

end Dates

section Steps

variable {x y : Dated} {lists lists' : Head → List Entry} {a : Action} {e e' : Entry} {h : Head}
  {turns processors p : ℕ}

/-- The queues whose order is that of the delayed queue. -/
def Head.dated : Head → Bool
  | .delayed | .intransit _ => true
  | _ => false

structure Ordered (x : Dated) (lists : Head → List Entry) : Prop where
  kept : Kept x.state lists
  order : ∀ h, h.dated = true → (lists h).Pairwise x.Before
  past : ∀ e ∈ lists .delayed, x.since e < x.now

theorem Ordered.holds (ordered : Ordered x lists) (h : Head) : x.Holds h (lists h) :=
  ordered.kept.sound.held.queued.ring h

theorem Ordered.inOrder_iff (kept : Kept x.state lists) :
    x.InOrder ↔ (lists .delayed).Pairwise x.Before := by
  constructor
  · rintro ⟨list, ring, order⟩
    have same := ring.unique (kept.sound.held.queued.ring .delayed)
    rwa [← List.map_injective_iff.mpr (fun _ _ => Sum.inr.inj) same]
  · exact fun order => ⟨_, kept.sound.held.queued.ring .delayed, order⟩

/-- What a step does, with the dates. -/
structure DatedStep (x : Dated) (a : Action) (y : Dated) (lists lists' : Head → List Entry) :
    Prop where
  stepped : Stepped x.state a y.state lists lists'
  now : y.now = x.now + 1
  since : ∀ e, y.since e = if e ∉ lists .delayed ∧ e ∈ lists' .delayed then x.now else x.since e

theorem nextDated_step (kept : Kept x.state lists) (leaves : LeavesTransit x.state a)
    (taken : nextDated turns x a = some y) : ∃ lists', DatedStep x a y lists lists' := by
  rw [nextDated] at taken
  split at taken
  · cases taken
  rename_i t stepped
  rw [← some.inj taken]
  obtain ⟨lists', step, -⟩ := next_stepped kept leaves stepped
  refine ⟨lists', step, rfl, ?_⟩
  intro e
  simp only [← step.kept.sound.held.delayed_iff, ← kept.sound.held.delayed_iff, Ne]

variable (step : DatedStep x a y lists lists')

include step

/-- An entry that is delayed or in transit keeps its date. -/
theorem DatedStep.since_eq (mem : e ∈ lists h) (dated : h.dated = true) : y.since e = x.since e := by
  rw [step.since, if_neg]
  rintro ⟨fresh, came⟩
  cases h with
  | free => cases dated
  | pending => cases dated
  | delayed => exact fresh mem
  | intransit p =>
    by_cases interrupts : a = .interrupt p
    · -- An interrupt schedules nothing.
      have delayed := step.stepped.delayed
      rw [interrupts] at delayed
      cases delayed with
      | fewer less => exact fresh (less.subset came)
    · rw [← step.stepped.served.other p interrupts] at mem
      exact absurd (step.stepped.kept.sound.held.queued.apart mem came) Head.noConfusion

theorem DatedStep.before (dated : h.dated = true) (mem : e ∈ lists h)
    (inside' : e' ∈ lists h) : y.Before e e' ↔ x.Before e e' := by
  have not_free : h ≠ .free := by
    rintro rfl
    cases dated
  have deadline : ∀ {e}, e ∈ lists h → y.deadline e = x.deadline e := fun mem =>
    step.stepped.deadline mem not_free
  rw [Dated.Before, Dated.Before, deadline mem, deadline inside',
    step.since_eq mem dated, step.since_eq inside' dated]

/-- Some entries of a queue are in order after the step if they were before. -/
theorem DatedStep.pairwise (ordered : Ordered x lists) (dated : h.dated = true) {l : List Entry}
    (less : l.Sublist (lists h)) : l.Pairwise y.Before := by
  refine ((ordered.order h dated).sublist less).imp_of_mem ?_
  intro e e' mem inside' before
  exact (step.before dated (less.subset mem) (less.subset inside')).mpr before

/-- The new entry of the delayed queue is in order if it goes after at most one of its deadline. -/
theorem DatedStep.inOrder_iff (ordered : Ordered x lists) : y.InOrder ↔ FewTies x a := by
  rw [Ordered.inOrder_iff step.stepped.kept]
  have held := ordered.kept.sound.held
  have delayed := step.stepped.delayed
  generalize schedules : a.schedules x.state = scheduled at delayed
  cases delayed with
  | fewer less =>
    refine iff_of_true (step.pairwise ordered rfl less) ?_
    intro deadline some_deadline
    rw [schedules] at some_deadline
    cases some_deadline
  | @more new k₁ k₂ split split' fresh fits =>
    have date : y.since new = x.now := by
      rw [step.since, if_pos]
      exact ⟨fresh, split' ▸ mem_append_cons_self⟩
    have since : ∀ {e}, e ∈ lists .delayed → y.since e < x.now := fun mem =>
      step.since_eq mem rfl ▸ ordered.past _ mem
    have deadline : ∀ {e}, e ∈ lists .delayed → y.deadline e = x.deadline e := fun mem =>
      step.stepped.deadline mem (by decide)
    have old := step.pairwise ordered rfl (List.Sublist.refl (lists .delayed))
    rw [split'] at *
    rw [split] at old since deadline
    constructor
    · intro order d due e e' delayed_e same delayed_e' same'
      cases schedules.symm.trans due
      -- Nothing that has been scheduled before may come after the new entry.
      have apart : ∀ {e}, e ∈ k₁ ++ k₂ → x.deadline e = y.deadline new → e ∈ k₁ := by
        intro e mem same
        rcases mem_append.mp mem with first | last
        · exact first
        have before := (pairwise_cons.mp (pairwise_append.mp order).2.1).1 e last
        rw [Dated.Before, deadline mem, same, date, cmpTvalspec_self] at before
        have earlier := since mem
        omega
      rw [held.delayed_iff, split] at delayed_e delayed_e'
      have first := deadline delayed_e
      have second := deadline delayed_e'
      exact fits.only_one e (apart delayed_e same) e' (apart delayed_e' same')
        (first.trans same) (second.trans same')
    · intro few
      have ties := few _ schedules
      rw [pairwise_append, pairwise_cons]
      have parts := pairwise_append.mp old
      refine ⟨parts.1, ⟨?_, parts.2.1⟩, ?_⟩
      · intro e mem
        have member := mem_append_right k₁ mem
        left
        by_contra not_later
        have same : y.deadline e = y.deadline new := by
          have later := fits.later e mem
          exact (cmpTvalspec_eq_zero.mp (Int.le_antisymm later (Int.not_lt.mp not_later))).symm
        -- The search has passed another entry with this deadline.
        obtain ⟨e', inside', same'⟩ := fits.after_one e mem same
        have member' := mem_append_left k₂ inside'
        have equal := ties e e'
          ((held.delayed_iff e).mpr (split ▸ member)) ((deadline member).symm.trans same)
          ((held.delayed_iff e').mpr (split ▸ member')) ((deadline member').symm.trans same')
        have once := held.queued.nodup .delayed
        rw [split] at once
        exact (nodup_append.mp once).2.2 e' inside' e mem equal.symm
      · intro e mem e' inside'
        rcases mem_cons.mp inside' with rfl | inside'
        · rcases Int.lt_or_eq_of_le (fits.earlier e mem) with earlier | same
          · exact .inl earlier
          · right
            rw [date]
            exact ⟨cmpTvalspec_eq_zero.mp same, since (mem_append_left _ mem)⟩
        · exact parts.2.2 e mem e' inside'

/-- What an interrupt has taken off the delayed queue stays in order. -/
theorem DatedStep.serves (ordered : Ordered x lists) (interrupts : a = .interrupt p) :
    Serves p x y := by
  obtain ⟨taken, pending, left, source⟩ := step.stepped.served.interrupt p interrupts
  have holds : ∀ h, y.Holds h (lists' h) := step.stepped.kept.sound.held.queued.ring
  refine ⟨taken, lists .pending, ?_, ordered.holds _, pending ▸ holds _, left ▸ holds _, ?_⟩
  · rcases source with ⟨-, split⟩ | ⟨-, rfl⟩
    · have order := ordered.order .delayed rfl
      rw [split] at order
      exact (pairwise_append.mp order).1
    · exact ordered.order _ rfl
  · rcases source with ⟨expired, split⟩ | ⟨relocking, rfl⟩
    · exact .inl ⟨expired, _, split ▸ ordered.holds _, holds _⟩
    · exact .inr ⟨relocking, ordered.holds _⟩

theorem DatedStep.ordered (ordered : Ordered x lists) (few : FewTies x a) : Ordered y lists' := by
  have order := (Ordered.inOrder_iff step.stepped.kept).mp ((step.inOrder_iff ordered).mpr few)
  refine ⟨step.stepped.kept, ?_, ?_⟩
  · intro h dated
    cases h with
    | free => cases dated
    | pending => cases dated
    | delayed => exact order
    | intransit p =>
      by_cases interrupts : a = .interrupt p
      · obtain ⟨taken, -, left, source⟩ := step.stepped.served.interrupt p interrupts
        rw [left]
        rcases source with ⟨-, split⟩ | ⟨-, rfl⟩
        · refine step.pairwise (h := .delayed) ordered rfl ?_
          rw [split]
          exact (tail_sublist taken).trans (sublist_append_left _ _)
        · exact step.pairwise ordered dated (tail_sublist _)
      · rw [step.stepped.served.other p interrupts]
        exact step.pairwise ordered dated (List.Sublist.refl _)
  · intro e mem
    rw [step.now, step.since]
    split
    · exact Nat.lt_succ_self _
    rename_i old
    have before : e ∈ lists .delayed := by
      by_contra fresh
      exact old ⟨fresh, mem⟩
    exact Nat.lt_succ_of_lt (ordered.past e before)

end Steps

section Runs

variable {x : Dated} {turns processors : ℕ}

theorem ordered_of_run (run : Run (nextDated turns)
    (fun x a => LeavesTransit x.state a ∧ FewTies x a) (datedInit processors) x) :
    ∃ lists, Ordered x lists := by
  have start : ∃ lists, Ordered (datedInit processors) lists := by
    refine ⟨initLists, threadCallInit_kept processors, ?_, fun e mem => by cases mem⟩
    intro h dated
    cases h with
    | free | pending => cases dated
    | delayed | intransit => exact .nil
  have step : ∀ {x y a}, (∃ lists, Ordered x lists) → (LeavesTransit x.state a ∧ FewTies x a) →
      nextDated turns x a = some y → ∃ lists, Ordered y lists := by
    rintro x y a ⟨lists, ordered⟩ ⟨leaves, few⟩ taken
    obtain ⟨lists', step⟩ := nextDated_step ordered.kept leaves taken
    exact ⟨lists', step.ordered ordered few⟩
  exact run.invariant start step

/-- In every run in which at most one entry of the delayed queue has the deadline of one that is put
on it, the queue is ordered by deadline, first come first served.  A timer interrupt makes the
entries that it takes off the queue pending in that order: no other step changes what it has in
transit.  A step that ends such a run because two entries have the deadline breaks the order. -/
theorem delayed_firstCome (run : Run (nextDated turns)
    (fun x a => LeavesTransit x.state a ∧ FewTies x a) (datedInit processors) x) :
    x.InOrder ∧ (∀ a y, LeavesTransit x.state a → nextDated turns x a = some y →
        (y.InOrder ↔ FewTies x a) ∧
          ∀ p list, a ≠ .interrupt p → x.Holds (.intransit p) list → y.Holds (.intransit p) list) ∧
      ∀ p y, nextDated turns x (.interrupt p) = some y → Serves p x y := by
  obtain ⟨lists, ordered⟩ := ordered_of_run run
  refine ⟨(Ordered.inOrder_iff ordered.kept).mpr (ordered.order _ rfl), ?_, ?_⟩
  · intro a y leaves taken
    obtain ⟨lists', step⟩ := nextDated_step ordered.kept leaves taken
    refine ⟨step.inOrder_iff ordered, ?_⟩
    intro p list other holds
    have after : y.Holds (.intransit p) (lists' (.intransit p)) :=
      step.stepped.kept.sound.held.queued.ring _
    rw [step.stepped.served.other p other] at after
    rw [Dated.Holds, holds.unique (ordered.holds _)]
    exact after
  · intro p y taken
    obtain ⟨lists', step⟩ := nextDated_step (a := .interrupt p) ordered.kept trivial taken
    exact step.serves ordered rfl

/-- One function is delayed, and the timer expires. -/
theorem delayed_firstCome_func :
    ∃ w x y, nextDated 2 (datedInit 1) (.call 0 (.funcDelayed 5 7 ⟨10, 0⟩)) = some w ∧
      nextDated 2 w (.expire 0 ⟨10, 0⟩) = some x ∧ nextDated 2 x (.interrupt 0) = some y ∧
      x.InOrder ∧ Serves 0 x y := by
  have possible : ((nextDated 2 (datedInit 1) (.call 0 (.funcDelayed 5 7 ⟨10, 0⟩))).bind fun w =>
      (nextDated 2 w (.expire 0 ⟨10, 0⟩)).bind fun x =>
        nextDated 2 x (.interrupt 0)).isSome = true := by
    decide +kernel
  obtain ⟨y, reached⟩ := isSome_iff_exists.mp possible
  obtain ⟨w, delayed, reached⟩ := bind_eq_some_iff.mp reached
  obtain ⟨x, expires, interrupts⟩ := bind_eq_some_iff.mp reached
  have free : LeavesTransit (datedInit 1).state (.call 0 (.funcDelayed 5 7 ⟨10, 0⟩)) ∧
      FewTies (datedInit 1) (.call 0 (.funcDelayed 5 7 ⟨10, 0⟩)) := by
    refine ⟨fun c touched => absurd touched (or_self_iff.not.mpr id), ?_⟩
    intro deadline due e e' idle
    cases idle
  have later : LeavesTransit w.state (.expire 0 ⟨10, 0⟩) ∧ FewTies w (.expire 0 ⟨10, 0⟩) :=
    ⟨trivial, fun _ due => by cases due⟩
  have first := delayed_firstCome (.step (.step .start free delayed) later expires)
  exact ⟨w, x, y, delayed, expires, interrupts, first.1, first.2.2 0 y interrupts⟩

/-- Three entries with one deadline. -/
def lastComeActions : List Action :=
  [.call 0 (.allocate 1 5 0), .call 0 (.allocate 2 6 0), .call 0 (.allocate 3 7 0),
    .call 0 (.enterDelayed 1 ⟨10, 0⟩), .call 0 (.enterDelayed 2 ⟨10, 0⟩),
    .call 0 (.enterDelayed 3 ⟨10, 0⟩)]

/-- The third entry is before the second one. -/
theorem delayed_lastCome :
    ∃ x, Run (nextDated 10) (fun _ _ => True) (datedInit 1) x ∧ ¬ x.InOrder := by
  have reached : (runActions (nextDated 10) (datedInit 1) lastComeActions).any (fun x =>
      decide (x.state.calls.links.next (.inl .delayed) = .inr (.external 1) ∧
        x.state.calls.links.next (.inr (.external 1)) = .inr (.external 3) ∧
        x.state.calls.links.next (.inr (.external 3)) = .inr (.external 2) ∧
        x.deadline (.external 3) = x.deadline (.external 2) ∧
        x.since (.external 2) < x.since (.external 3))) = true := by
    decide +kernel
  obtain ⟨x, taken, shown⟩ := (any_eq_true _ _).mp reached
  obtain ⟨first, second, third, same, earlier⟩ := of_decide_eq_true shown
  refine ⟨x, run_of_runActions taken, ?_⟩
  rintro ⟨list, ring, order⟩
  match list, ring.path, order with
  | [], path, _ => cases first.symm.trans path.next
  | [_], path, _ =>
    cases first.symm.trans path.1.next
    cases second.symm.trans path.2.next
  | [_, _], path, _ =>
    cases first.symm.trans path.1.next
    cases second.symm.trans path.2.1.next
    cases third.symm.trans path.2.2.next
  | _ :: _ :: _ :: _, path, order =>
    cases first.symm.trans path.1.next
    cases second.symm.trans path.2.1.next
    cases third.symm.trans path.2.2.1.next
    have before := (pairwise_cons.mp (pairwise_cons.mp order).2).1 _ mem_cons_self
    rw [Dated.Before, same, cmpTvalspec_self] at before
    omega

end Runs

end Darwin.Kern.ThreadCall
