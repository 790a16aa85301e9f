import Darwin.Kern.ThreadCall.Basic
import Mathlib.Data.List.Pairwise

/-!
# The callout queues as lists

What each routine on the callout entries does to the queues, as lists of entries.

## Main results

* `Held`: the queues hold these lists, with the status and the count that go with them.
* `removeFromQueue_held`, `delayedCallSchedule_held`, `takeExpired_held`: the loops of the code.
-/

namespace Darwin.Kern.ThreadCall

open List Option
open Function (update update_of_ne update_self)
open Darwin.Lib

section Order

variable {a b c : Tvalspec}

theorem cmpTvalspec_self : cmpTvalspec a a = 0 := by
  simp [cmpTvalspec]

theorem cmpTvalspec_trans (ab : cmpTvalspec a b ≤ 0) (bc : cmpTvalspec b c ≤ 0) :
    cmpTvalspec a c ≤ 0 := by
  unfold cmpTvalspec at *
  grind

theorem cmpTvalspec_swap : cmpTvalspec b a = -cmpTvalspec a b := by
  unfold cmpTvalspec
  grind

theorem cmpTvalspec_eq_zero : cmpTvalspec a b = 0 ↔ a = b := by
  constructor
  · intro zero
    cases a
    cases b
    simp only [cmpTvalspec] at zero
    grind
  · rintro rfl
    exact cmpTvalspec_self

end Order

/-- The queues hold these lists, an entry shows by its status if it is on the pending or the
delayed queue, and the delayed entries are in the order of their deadlines. -/
structure Held (s : Calls) (lists : Head → List Entry) : Prop where
  queued : Queued s.links lists
  pending_iff : ∀ call, (s.entry call).status = .pending ↔ call ∈ lists .pending
  delayed_iff : ∀ call, (s.entry call).status = .delayed ↔ call ∈ lists .delayed
  num : s.pendingCallNum = (lists .pending).length
  internal : ∀ call ∈ lists .free, ∃ i, call = .internal i
  sorted : (lists .delayed).Pairwise fun a b =>
    cmpTvalspec (s.entry a).deadline (s.entry b).deadline ≤ 0

section Fields

variable {s : Calls} {lists : Head → List Entry} {call : Entry}

theorem Held.idle (held : Held s lists) (pending : call ∉ lists .pending)
    (delayed : call ∉ lists .delayed) : (s.entry call).status = .idle := by
  cases status : (s.entry call).status with
  | idle => rfl
  | pending => exact absurd ((held.pending_iff call).mp status) pending
  | delayed => exact absurd ((held.delayed_iff call).mp status) delayed

/-- The other fields of an entry that is on no queue may be set. -/
theorem Held.setEntry (held : Held s lists) (off : ∀ h, call ∉ lists h) {fields : CallEntry}
    (idle : fields.status = .idle) : Held (s.setEntry call fields) lists := by
  have other : ∀ {e h}, e ∈ lists h → (s.setEntry call fields).entry e = s.entry e := by
    intro e h mem
    apply update_of_ne
    rintro rfl
    exact off h mem
  have status : ∀ e, ((s.setEntry call fields).entry e).status = (s.entry e).status := by
    intro e
    by_cases same : e = call
    · subst same
      rw [held.idle (off .pending) (off .delayed), ← idle]
      exact congrArg CallEntry.status (update_self ..)
    · exact congrArg CallEntry.status (update_of_ne same ..)
  constructor
  case queued => exact held.queued
  case pending_iff =>
    intro e
    rw [status, held.pending_iff]
  case delayed_iff =>
    intro e
    rw [status, held.delayed_iff]
  case num => exact held.num
  case internal => exact held.internal
  case sorted =>
    refine held.sorted.imp_of_mem ?_
    intro a b inside_a inside_b order
    rw [other inside_a, other inside_b]
    exact order

end Fields

section Moves

variable {s t : Calls} {lists lists' : Head → List Entry} {call : Entry} {h : Head}
  {l l₁ l₂ : List Entry} {status : Status}

/-- What the routines do to the links, the count and one entry's status. -/
structure Moved (s t : Calls) (call : Entry) (status : Status) : Prop where
  entry : t.entry = update s.entry call { s.entry call with status := status }
  timer : t.timer = s.timer

theorem Moved.status_self (moved : Moved s t call status) : (t.entry call).status = status := by
  rw [moved.entry, update_self]

theorem Moved.status_other (moved : Moved s t call status) {e : Entry} (other : e ≠ call) :
    (t.entry e).status = (s.entry e).status := by
  rw [moved.entry, update_of_ne other]

theorem Moved.deadline (moved : Moved s t call status) (e : Entry) :
    (t.entry e).deadline = (s.entry e).deadline := by
  rw [moved.entry]
  by_cases same : e = call
  · subst same
    rw [update_self]
  · rw [update_of_ne same]

theorem setStatus_moved {s u : Calls} (same_entry : u.entry = s.entry)
    (same_timer : u.timer = s.timer) : Moved s (u.setStatus call status) call status := by
  refine ⟨?_, same_timer⟩
  rw [← same_entry]
  rfl

theorem pendingCallEnqueue_moved (s : Calls) (call : Entry) :
    Moved s (pendingCallEnqueue s call) call .pending :=
  setStatus_moved rfl rfl

theorem pendingCallDequeue_moved (s : Calls) (call : Entry) :
    Moved s (pendingCallDequeue s call) call .idle :=
  setStatus_moved rfl rfl

theorem delayedCallDequeue_moved (s : Calls) (call : Entry) :
    Moved s (delayedCallDequeue s call) call .idle :=
  setStatus_moved rfl rfl

/-- One entry changes its status, and perhaps its queue. -/
theorem Held.moved (held : Held s lists) (moved : Moved s t call status)
    (queued : Queued t.links lists') (num : t.pendingCallNum = (lists' .pending).length)
    (free : lists' .free = lists .free)
    (others : ∀ e h, e ≠ call → (e ∈ lists' h ↔ e ∈ lists h))
    (pending : status = .pending ↔ call ∈ lists' .pending)
    (delayed : status = .delayed ↔ call ∈ lists' .delayed)
    (sorted : (lists' .delayed).Pairwise fun a b =>
      cmpTvalspec (s.entry a).deadline (s.entry b).deadline ≤ 0) : Held t lists' := by
  constructor
  case queued => exact queued
  case pending_iff =>
    intro e
    by_cases same : e = call
    · rw [same, moved.status_self, pending]
    · rw [moved.status_other same, held.pending_iff, others e _ same]
  case delayed_iff =>
    intro e
    by_cases same : e = call
    · rw [same, moved.status_self, delayed]
    · rw [moved.status_other same, held.delayed_iff, others e _ same]
  case num => exact num
  case internal =>
    rw [free]
    exact held.internal
  case sorted => simpa only [moved.deadline] using sorted

theorem mem_update_iff (same : ∀ e, e ≠ call → (e ∈ l ↔ e ∈ lists h)) (e : Entry) (k : Head)
    (other : e ≠ call) : e ∈ update lists h l k ↔ e ∈ lists k := by
  by_cases here : k = h
  · subst here
    rw [update_self, same e other]
  · rw [update_of_ne here]

/-- An entry on no queue goes to the end of the pending queue. -/
theorem pendingCallEnqueue_held (held : Held s lists) (off : ∀ h, call ∉ lists h) :
    Held (pendingCallEnqueue s call)
      (update lists .pending (lists .pending ++ [call])) := by
  apply held.moved (pendingCallEnqueue_moved s call)
  case queued => exact enqueueTail_queued held.queued off
  case num =>
    rw [update_self, length_append, Int.natCast_add, ← held.num]
    rfl
  case free => exact update_of_ne (by decide) ..
  case others =>
    apply mem_update_iff
    intro e other
    simp [other]
  case pending => simp
  case delayed => simpa using off .delayed
  case sorted =>
    rw [update_of_ne (by decide)]
    exact held.sorted

variable (held : Held s lists)

include held

/-- Taking an entry out of the pending or the delayed queue makes it idle. -/
theorem Held.dequeue (scheduled : h = .pending ∨ h = .delayed)
    (split : lists h = l₁ ++ call :: l₂) (moved : Moved s t call .idle)
    (links : t.links = remqueue s.links (.inr call))
    (num : t.pendingCallNum = if h = .pending then s.pendingCallNum - 1 else s.pendingCallNum) :
    Held t (update lists h (l₁ ++ l₂)) := by
  have less := update_split_sublist split
  have off := held.queued.off_update split
  apply held.moved moved
  case queued =>
    rw [links]
    exact remqueue_queued held.queued split
  case num =>
    have before := held.num
    rcases scheduled with rfl | rfl
    · rw [split] at before
      rw [num, before, if_pos rfl, update_self]
      simp only [length_append, length_cons]
      omega
    · rw [num, if_neg (by decide), update_of_ne (by decide), before]
  case free =>
    apply update_of_ne
    rcases scheduled with rfl | rfl <;> decide
  case others =>
    apply mem_update_iff
    intro e other
    rw [split]
    simp [other]
  case pending => simpa using off .pending
  case delayed => simpa using off .delayed
  case sorted => exact held.sorted.sublist (less .delayed)

/-- An entry on no queue moves to a queue other than the pending and the delayed one. -/
theorem enqueueTail_held (off : ∀ h, call ∉ lists h)
    (not_pending : h ≠ .pending) (not_delayed : h ≠ .delayed)
    (internal : h = .free → ∃ i, call = .internal i) :
    Held { s with links := enqueueTail s.links (.inl h) (.inr call) }
      (update lists h (lists h ++ [call])) := by
  constructor
  case queued => exact enqueueTail_queued held.queued off
  case pending_iff =>
    rw [update_of_ne not_pending.symm]
    exact held.pending_iff
  case delayed_iff =>
    rw [update_of_ne not_delayed.symm]
    exact held.delayed_iff
  case num =>
    rw [update_of_ne not_pending.symm]
    exact held.num
  case internal =>
    intro e mem
    by_cases same : h = .free
    · subst same
      rw [update_self, mem_append, mem_singleton] at mem
      rcases mem with mem | rfl
      · exact held.internal e mem
      · exact internal rfl
    · rw [update_of_ne (Ne.symm same)] at mem
      exact held.internal e mem
  case sorted =>
    rw [update_of_ne not_delayed.symm]
    exact held.sorted

/-- The first entry of such a queue is taken out. -/
theorem remqueue_held (split : lists h = call :: l)
    (not_pending : h ≠ .pending) (not_delayed : h ≠ .delayed) :
    Held { s with links := remqueue s.links (.inr call) } (update lists h l) := by
  constructor
  case queued =>
    have split' : lists h = [] ++ call :: l := split
    exact remqueue_queued held.queued split'
  case pending_iff =>
    rw [update_of_ne not_pending.symm]
    exact held.pending_iff
  case delayed_iff =>
    rw [update_of_ne not_delayed.symm]
    exact held.delayed_iff
  case num =>
    rw [update_of_ne not_pending.symm]
    exact held.num
  case internal =>
    intro e mem
    by_cases same : h = .free
    · subst same
      rw [update_self] at mem
      exact held.internal e (split ▸ mem_cons_of_mem _ mem)
    · rw [update_of_ne (Ne.symm same)] at mem
      exact held.internal e mem
  case sorted =>
    rw [update_of_ne not_delayed.symm]
    exact held.sorted

end Moves

/-- Entries have left the pending and the delayed queue, and internal ones are free again. -/
structure Shrunk (s t : Calls) (lists lists' : Head → List Entry) : Prop where
  pending : (lists' .pending).Sublist (lists .pending)
  delayed : (lists' .delayed).Sublist (lists .delayed)
  transit : ∀ p, lists' (.intransit p) = lists (.intransit p)
  inside : ∀ {e h}, e ∈ lists' h → ∃ h, e ∈ lists h
  timer : t.timer = s.timer
  deadline : ∀ e, (t.entry e).deadline = (s.entry e).deadline

section Removal

variable {s t : Calls} {lists : Head → List Entry} {call : Entry} {queue : Head}
  {l₁ l₂ : List Entry} {dequeue : Calls → Entry → Calls}

theorem Shrunk.refl : Shrunk s s lists lists where
  pending := List.Sublist.refl _
  delayed := List.Sublist.refl _
  transit _ := rfl
  inside {_ h} mem := ⟨h, mem⟩
  timer := rfl
  deadline _ := rfl

theorem Shrunk.trans {u : Calls} {lists' lists'' : Head → List Entry}
    (first : Shrunk s t lists lists') (second : Shrunk t u lists' lists'') :
    Shrunk s u lists lists'' where
  pending := second.pending.trans first.pending
  delayed := second.delayed.trans first.delayed
  transit p := (second.transit p).trans (first.transit p)
  inside mem := by
    obtain ⟨h, mem⟩ := second.inside mem
    exact first.inside mem
  timer := second.timer.trans first.timer
  deadline e := (second.deadline e).trans (first.deadline e)

/-- What the two routines that take an entry out of its queue have in common. -/
structure Dequeues (dequeue : Calls → Entry → Calls) (queue : Head) : Prop where
  scheduled : queue = .pending ∨ queue = .delayed
  held : ∀ {s lists call l₁ l₂}, Held s lists → lists queue = l₁ ++ call :: l₂ →
    Held (dequeue s call) (update lists queue (l₁ ++ l₂))
  moved : ∀ {s call}, Moved s (dequeue s call) call .idle

theorem pendingCallDequeue_dequeues : Dequeues pendingCallDequeue .pending where
  scheduled := .inl rfl
  held held split := held.dequeue (.inl rfl) split (pendingCallDequeue_moved _ _) rfl rfl
  moved := pendingCallDequeue_moved _ _

theorem delayedCallDequeue_dequeues : Dequeues delayedCallDequeue .delayed where
  scheduled := .inr rfl
  held held split := held.dequeue (.inr rfl) split (delayedCallDequeue_moved _ _) rfl rfl
  moved := delayedCallDequeue_moved _ _

variable (dequeues : Dequeues dequeue queue)

include dequeues

/-- An entry is taken out of its queue and released. -/
theorem Dequeues.release (held : Held s lists)
    (split : lists queue = l₁ ++ call :: l₂) :
    ∃ lists', Held (threadCallRelease (dequeue s call) call) lists' ∧
      Shrunk s (threadCallRelease (dequeue s call) call) lists lists' ∧
      lists' queue = l₁ ++ l₂ ∧ ∀ c h, call = .external c → .external c ∉ lists' h := by
  have held' := dequeues.held held split
  have off := held.queued.off_update split
  have member : call ∈ lists queue := by simp [split]
  have less := update_split_sublist split
  have not_transit : ∀ p, update lists queue (l₁ ++ l₂) (.intransit p) =
      lists (.intransit p) := by
    intro p
    apply update_of_ne
    rcases dequeues.scheduled with rfl | rfl <;> exact Head.noConfusion
  cases call with
  | external c =>
    refine ⟨_, held', ?_, update_self .., ?_⟩
    · constructor
      case pending => exact less .pending
      case delayed => exact less .delayed
      case transit => exact not_transit
      case inside => exact fun {e h} mem => ⟨h, (less h).subset mem⟩
      case timer => exact dequeues.moved.timer
      case deadline => exact dequeues.moved.deadline
    · rintro c' h ⟨⟩
      exact off h
  | internal i =>
    have not_free : queue ≠ .free := by
      rcases dequeues.scheduled with rfl | rfl <;> decide
    refine ⟨_, enqueueTail_held held' off (by decide) (by decide) fun _ => ⟨i, rfl⟩, ?_, ?_, ?_⟩
    · constructor
      case pending =>
        rw [update_of_ne (by decide)]
        exact less .pending
      case delayed =>
        rw [update_of_ne (by decide)]
        exact less .delayed
      case transit =>
        intro p
        rw [update_of_ne (by simp)]
        exact not_transit p
      case inside =>
        intro e h mem
        by_cases same : h = .free
        · subst same
          rw [update_self, mem_append, mem_singleton] at mem
          rcases mem with mem | rfl
          · exact ⟨_, (less .free).subset mem⟩
          · exact ⟨_, member⟩
        · rw [update_of_ne same] at mem
          exact ⟨_, (less h).subset mem⟩
      case timer => exact dequeues.moved.timer
      case deadline => exact dequeues.moved.deadline
    · rw [update_of_ne not_free, update_self]
    · intro c h same
      cases same

/-- The loop of `_remove_from_pending_queue` and `_remove_from_delayed_queue`. -/
theorem removeFromQueue_held {func spec : ℕ}
    {removeAll removed result : Bool} {turns : ℕ} (held : Held s lists)
    (split : lists queue = l₁ ++ l₂)
    (found : removeFromQueue dequeue queue func spec removeAll turns s (firstNode queue l₂)
      removed = some (t, result)) :
    ∃ lists', Held t lists' ∧ Shrunk s t lists lists' := by
  induction turns generalizing s lists l₁ l₂ removed with
  | zero => cases found
  | succ turns ih =>
    cases l₂ with
    | nil =>
      rw [firstNode_nil, removeFromQueue, if_pos rfl] at found
      obtain ⟨rfl, -⟩ := Prod.mk.inj (some.inj found)
      exact ⟨lists, held, .refl⟩
    | cons call l =>
      rw [firstNode_cons, removeFromQueue, if_neg Sum.inr_ne_inl] at found
      have follows := held.queued.next_elem split
      simp only [follows] at found
      obtain ⟨lists', held', shrunk, split', -⟩ := dequeues.release held split
      split at found
      · split at found
        · obtain ⟨lists'', held'', shrunk'⟩ := ih held' split' found
          exact ⟨lists'', held'', shrunk.trans shrunk'⟩
        · obtain ⟨rfl, -⟩ := Prod.mk.inj (some.inj found)
          exact ⟨lists', held', shrunk⟩
      · have later : lists queue = (l₁ ++ [call]) ++ l := by
          rw [split, append_assoc, singleton_append]
        exact ih held later found

end Removal

section Delayed

variable {s t : Calls} {lists : Head → List Entry} {call : Entry} {l₁ l₂ : List Entry}
  {deadline timestamp : Tvalspec} {node : Node} {turns p : ℕ}

/-- Where an entry with this deadline goes: between the earlier and the later entries, and after
just one of those that have the same. -/
structure Fits (time : Entry → Tvalspec) (deadline : Tvalspec) (l₁ l₂ : List Entry) : Prop where
  earlier : ∀ e ∈ l₁, cmpTvalspec (time e) deadline ≤ 0
  later : ∀ e ∈ l₂, cmpTvalspec deadline (time e) ≤ 0
  after_one : ∀ e ∈ l₂, time e = deadline → ∃ x ∈ l₁, time x = deadline
  only_one : ∀ x ∈ l₁, ∀ y ∈ l₁, time x = deadline → time y = deadline → x = y

/-- The loop of `_delayed_call_enqueue` stops at the first entry that is not earlier. -/
theorem delayedCallPlace_spec (held : Held s lists) (split : lists .delayed = l₁ ++ l₂)
    (before : ∀ e ∈ l₁, cmpTvalspec (s.entry e).deadline deadline < 0)
    (found : delayedCallPlace s deadline turns (firstNode .delayed l₂) = some node) :
    ∃ k₁ k₂, lists .delayed = k₁ ++ k₂ ∧ node = lastNode .delayed k₁ ∧
      Fits (fun e => (s.entry e).deadline) deadline k₁ k₂ := by
  induction turns generalizing l₁ l₂ with
  | zero => cases found
  | succ turns ih =>
    have apart : ∀ e ∈ l₁, (s.entry e).deadline ≠ deadline := by
      intro e mem same
      exact absurd (before e mem) (by simp [same, cmpTvalspec_self])
    have none_same : ∀ x ∈ l₁, ∀ y ∈ l₁, (s.entry x).deadline = deadline →
        (s.entry y).deadline = deadline → x = y := fun x mem _ _ same =>
      absurd same (apart x mem)
    cases l₂ with
    | nil =>
      rw [firstNode_nil, delayedCallPlace, if_pos rfl] at found
      refine ⟨l₁, [], split, ?_, fun e mem => Int.le_of_lt (before e mem), forall_mem_nil _,
        forall_mem_nil _, none_same⟩
      rw [← some.inj found, held.queued.prev_head, split, append_nil]
    | cons e l =>
      rw [firstNode_cons, delayedCallPlace, if_neg Sum.inr_ne_inl] at found
      have later : lists .delayed = (l₁ ++ [e]) ++ l := by
        rw [split, append_assoc, singleton_append]
      have order := held.sorted
      rw [split] at order
      have after := (pairwise_cons.mp (pairwise_append.mp order).2.1).1
      dsimp only at found
      split at found
      case isTrue earlier =>
        have later : ∀ x ∈ e :: l, cmpTvalspec (s.entry e).deadline (s.entry x).deadline ≤ 0 :=
          forall_mem_cons.mpr ⟨Int.le_of_eq cmpTvalspec_self, after⟩
        refine ⟨l₁, e :: l, split, ?_, fun e mem => Int.le_of_lt (before e mem), ?_, ?_, none_same⟩
        · rw [← some.inj found, held.queued.prev_elem split]
        · exact fun x mem => cmpTvalspec_trans (Int.le_of_lt earlier) (later x mem)
        intro x mem same
        have not_later := later x mem
        rw [same, cmpTvalspec_swap] at not_later
        omega
      case isFalse not_earlier =>
        split at found
        case isTrue same =>
          have same := cmpTvalspec_eq_zero.mp same
          refine ⟨l₁ ++ [e], l, later, ?_, ?_, ?_, fun _ _ _ => ⟨e, by simp, same.symm⟩, ?_⟩
          · rw [← some.inj found, lastNode_concat]
          · rw [forall_mem_append, forall_mem_singleton, ← same]
            exact ⟨fun x mem => Int.le_of_lt (before x mem), Int.le_of_eq cmpTvalspec_self⟩
          · rw [same]
            exact after
          have last : ∀ x ∈ l₁ ++ [e], (s.entry x).deadline = deadline → x = e := by
            intro x mem equal
            rcases mem_append.mp mem with mem | mem
            · exact absurd equal (apart x mem)
            · exact mem_singleton.mp mem
          intro x inside_x y inside_y same_x same_y
          rw [last x inside_x same_x, last y inside_y same_y]
        case isFalse other =>
          rw [held.queued.next_elem split] at found
          refine ih later ?_ found
          rw [forall_mem_append, forall_mem_singleton]
          refine ⟨before, ?_⟩
          rw [cmpTvalspec_swap]
          omega

/-- An entry on no queue goes on the delayed queue, and the timer is set if it is the first. -/
theorem delayedCallSchedule_held (held : Held s lists) (off : ∀ h, call ∉ lists h)
    (found : delayedCallSchedule turns s call = some t) :
    ∃ k₁ k₂, lists .delayed = k₁ ++ k₂ ∧
      Fits (fun e => (s.entry e).deadline) (s.entry call).deadline k₁ k₂ ∧
      Held t (update lists .delayed (k₁ ++ call :: k₂)) ∧
      (∀ e, (t.entry e).deadline = (s.entry e).deadline) ∧
      t.timer = if k₁ = [] then some (s.entry call).deadline else s.timer := by
  rw [delayedCallSchedule, delayedCallEnqueue] at found
  rw [held.queued.next_head] at found
  split at found
  · cases found
  rename_i u placed
  split at placed
  · cases placed
  rename_i node place
  have u_eq := (some.inj placed).symm
  have split : lists .delayed = [] ++ lists .delayed := rfl
  obtain ⟨k₁, k₂, split, rfl, fits⟩ := delayedCallPlace_spec held split (forall_mem_nil _) place
  have moved : Moved s u call .delayed := u_eq ▸ setStatus_moved rfl rfl
  have links : u.links = insque s.links (.inr call) (lastNode .delayed k₁) := by
    rw [u_eq]
    rfl
  have count : u.pendingCallNum = s.pendingCallNum := by
    rw [u_eq]
    rfl
  have queued : Queued u.links (update lists .delayed (k₁ ++ call :: k₂)) := by
    rw [links]
    exact insque_queued held.queued split off
  have held' : Held u (update lists .delayed (k₁ ++ call :: k₂)) := by
    apply held.moved moved queued
    case num =>
      rw [update_of_ne (by decide), count]
      exact held.num
    case free => exact update_of_ne (by decide) ..
    case others =>
      apply mem_update_iff
      intro e other
      simp [split, other]
    case pending => simpa using off .pending
    case delayed => simp
    case sorted =>
      rw [update_self]
      have order := held.sorted
      rw [split, pairwise_append] at order
      rw [pairwise_append, pairwise_cons]
      refine ⟨order.1, ⟨fits.later, order.2.1⟩, ?_⟩
      intro a inside_a b inside_b
      rcases mem_cons.mp inside_b with rfl | inside_b
      · exact fits.earlier a inside_a
      · exact order.2.2 a inside_a b inside_b
  have first : u.links.next (.inl .delayed) = .inr call ↔ k₁ = [] := by
    rw [queued.next_head, update_self]
    cases k₁ with
    | nil => simp
    | cons e l =>
      have other : e ≠ call := by
        rintro rfl
        exact off .delayed (split ▸ mem_cons_self)
      simp [other]
  have t_eq := (some.inj found).symm
  refine ⟨k₁, k₂, split, fits, ?_⟩
  by_cases empty : k₁ = []
  · rw [if_pos (first.mpr empty)] at t_eq
    rw [t_eq, if_pos empty]
    refine ⟨⟨held'.queued, held'.pending_iff, held'.delayed_iff, held'.num, held'.internal,
      held'.sorted⟩, moved.deadline, ?_⟩
    exact congrArg some (moved.deadline call)
  · rw [if_neg (mt first.mp empty)] at t_eq
    rw [t_eq, if_neg empty]
    exact ⟨held', moved.deadline, moved.timer⟩

/-- The first loop of the timer interrupt takes the expired entries, in their order. -/
theorem takeExpired_held (held : Held s lists) (taken : takeExpired p timestamp turns s = some t) :
    ∃ lists' expired, Held t lists' ∧ lists .delayed = expired ++ lists' .delayed ∧
      lists' (.intransit p) = lists (.intransit p) ++ expired ∧
      (∀ h, h ≠ .delayed → h ≠ .intransit p → lists' h = lists h) ∧
      (∀ e, (t.entry e).deadline = (s.entry e).deadline) ∧
      (∀ e ∈ expired, cmpTvalspec (s.entry e).deadline timestamp ≤ 0) ∧
      ∀ e rest, lists' .delayed = e :: rest →
        ¬ cmpTvalspec (s.entry e).deadline timestamp ≤ 0 := by
  induction turns generalizing s lists with
  | zero => cases taken
  | succ turns ih =>
    rw [takeExpired, held.queued.next_head] at taken
    cases delayed : lists .delayed with
    | nil =>
      rw [delayed] at taken
      obtain rfl : s = t := some.inj taken
      refine ⟨lists, [], held, delayed.symm, (append_nil _).symm, fun h _ _ => rfl,
        fun e => rfl, ?_, ?_⟩
      · intro e mem
        cases mem
      · intro e rest split
        rw [delayed] at split
        cases split
    | cons call l =>
      rw [delayed] at taken
      simp only [firstNode_cons] at taken
      split at taken
      case isFalse later =>
        obtain rfl : s = t := some.inj taken
        refine ⟨lists, [], held, delayed.symm, (append_nil _).symm, fun h _ _ => rfl,
        fun e => rfl, ?_, ?_⟩
        · intro e mem
          cases mem
        intro e rest split
        rw [delayed] at split
        obtain ⟨rfl, -⟩ := List.cons.inj split
        exact later
      case isTrue due =>
        have split : lists .delayed = [] ++ call :: l := delayed
        have moved := delayedCallDequeue_moved s call
        have held' := delayedCallDequeue_dequeues.held held split
        have off := held.queued.off_update split
        have held'' := enqueueTail_held (h := .intransit p) held' off Head.noConfusion
          Head.noConfusion Head.noConfusion
        obtain ⟨lists', expired, result, left, transit, same, deadline, all_due, last⟩ :=
          ih held'' taken
        have other : (Head.delayed : Head) ≠ .intransit p := Head.noConfusion
        rw [update_of_ne other, update_self] at left
        rw [update_self, update_of_ne other.symm, append_assoc, singleton_append] at transit
        refine ⟨lists', call :: expired, result, ?_, transit, ?_, ?_, ?_, ?_⟩
        · rw [cons_append, ← left]
          rfl
        · intro h not_delayed not_transit
          rw [same h not_delayed not_transit, update_of_ne not_transit, update_of_ne not_delayed]
        · exact fun e => (deadline e).trans (moved.deadline e)
        · intro e mem
          rcases mem_cons.mp mem with rfl | mem
          · exact due
          · have due' := all_due e mem
            simpa only [moved.deadline] using due'
        · intro e rest split'
          have later := last e rest split'
          simpa only [moved.deadline] using later

end Delayed

end Darwin.Kern.ThreadCall
