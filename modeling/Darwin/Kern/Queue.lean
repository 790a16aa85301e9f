import Darwin.Lib.Ring

/-!
# The kernel's queue package

The routines of `kern/queue.h` on doubly linked queues.  None of them checks that an element is, or
is not, on a queue.

## Main results

* `enqueueTail_queued`, `insque_queued`: an element that is on no queue is put in.
* `remqueue_queued`, `dequeueHead_queued`: an element is taken out of the queue it is on.
* `queue_refines`: any sequence of calls does to the links what it would do to lists.
-/

namespace Darwin.Kern

open Function (update)
open Darwin.Lib

section Definitions

variable {N : Type*} [DecidableEq N]

def setNext (links : Links N) (elt node : N) : Links N :=
  { links with next := update links.next elt node }

def setPrev (links : Links N) (elt node : N) : Links N :=
  { links with prev := update links.prev elt node }

/-- `queue_init`. -/
def queueInit (links : Links N) (que : N) : Links N := setNext (setPrev links que que) que que

/-- `enqueue_head`: insert an element at the head of a queue. -/
def enqueueHead (links : Links N) (que elt : N) : Links N :=
  let links := setNext links elt (links.next que)
  let links := setPrev links elt que
  let links := setPrev links (links.next elt) elt
  setNext links que elt

/-- `enqueue_tail`: insert an element at the tail of a queue. -/
def enqueueTail (links : Links N) (que elt : N) : Links N :=
  let links := setNext links elt que
  let links := setPrev links elt (links.prev que)
  let links := setNext links (links.prev elt) elt
  setPrev links que elt

/-- `dequeue_head`: remove and return the element at the head of a queue. -/
def dequeueHead (links : Links N) (que : N) : Option (N × Links N) :=
  if links.next que = que then none
  else
    let elt := links.next que
    let links := setPrev links (links.next elt) que
    some (elt, setNext links que (links.next elt))

/-- `dequeue_tail`: remove and return the element at the tail of a queue. -/
def dequeueTail (links : Links N) (que : N) : Option (N × Links N) :=
  if links.prev que = que then none
  else
    let elt := links.prev que
    let links := setNext links (links.prev elt) que
    some (elt, setPrev links que (links.prev elt))

/-- `remqueue`: remove an arbitrary element from its queue. -/
def remqueue (links : Links N) (elt : N) : Links N :=
  let links := setPrev links (links.next elt) (links.prev elt)
  setNext links (links.prev elt) (links.next elt)

/-- `insque`: insert an element after another one. -/
def insque (links : Links N) (entry pred : N) : Links N :=
  let links := setNext links entry (links.next pred)
  let links := setPrev links entry pred
  let links := setPrev links (links.next pred) entry
  setNext links pred entry

end Definitions

section Edits

variable {N : Type*} [DecidableEq N] {links : Links N} {que elt entry pred : N}

theorem insque_inserted (new : entry ≠ pred) (next_new : links.next pred ≠ entry) :
    Inserted links (insque links entry pred) pred entry := by
  constructor
  case before => constructor <;> simp [insque, setNext, setPrev, new.symm, next_new.symm]
  case after => constructor <;> simp [insque, setNext, setPrev, new, new.symm]
  case next =>
    intro y not_pred not_entry
    simp [insque, setNext, setPrev, not_pred, not_entry]
  case prev =>
    intro y not_after not_entry
    simp [insque, setNext, setPrev, new.symm, not_after, not_entry]

theorem enqueueTail_inserted (new : elt ≠ que) (prev_new : links.prev que ≠ elt)
    (back : links.next (links.prev que) = que) :
    Inserted links (enqueueTail links que elt) (links.prev que) elt := by
  constructor
  case before => constructor <;> simp [enqueueTail, setNext, setPrev, new]
  case after =>
    rw [back]
    constructor <;> simp [enqueueTail, setNext, setPrev, prev_new.symm]
  case next =>
    intro y not_pred not_entry
    simp [enqueueTail, setNext, setPrev, not_pred, not_entry]
  case prev =>
    intro y not_after not_entry
    rw [back] at not_after
    simp [enqueueTail, setNext, setPrev, not_after, not_entry]

theorem remqueue_removed (after : links.next elt ≠ elt) :
    Removed links (remqueue links elt) elt := by
  constructor
  case joined => constructor <;> simp [remqueue, setNext, setPrev, after.symm]
  case next =>
    intro y not_before
    simp [remqueue, setNext, setPrev, after.symm, not_before]
  case prev =>
    intro y not_after
    simp [remqueue, setNext, setPrev, not_after]

/-- Taking the first element is taking that element out. -/
theorem dequeueHead_eq (back : links.prev (links.next que) = que)
    (some_elt : links.next que ≠ que) (after : links.next (links.next que) ≠ links.next que) :
    dequeueHead links que = some (links.next que, remqueue links (links.next que)) := by
  rw [dequeueHead, if_neg some_elt, remqueue]
  simp [setNext, setPrev, back, Function.update_of_ne after.symm]

end Edits

section Queues

variable {H E : Type*} [DecidableEq H] [DecidableEq E] {links : Links (H ⊕ E)}
  {lists : H → List E} {h : H} {x : E} {l l₁ l₂ : List E}

variable (queued : Queued links lists)

include queued

theorem insque_queued (split : lists h = l₁ ++ l₂) (fresh : ∀ h, x ∉ lists h) :
    Queued (insque links (Sum.inr x) (lastNode h l₁))
      (update lists h (l₁ ++ x :: l₂)) := by
  have new := fresh h
  rw [split, List.mem_append, not_or] at new
  apply queued.insert split fresh
  apply insque_inserted (lastNode_ne new.1).symm
  rw [queued.next_last split]
  exact firstNode_ne new.2

theorem enqueueTail_queued (fresh : ∀ h, x ∉ lists h) :
    Queued (enqueueTail links (Sum.inl h) (Sum.inr x))
      (update lists h (lists h ++ [x])) := by
  have split : lists h = lists h ++ [] := (List.append_nil _).symm
  have last := queued.prev_head h
  apply queued.insert split fresh
  rw [← last]
  apply enqueueTail_inserted Sum.inr_ne_inl
  · rw [last]
    exact lastNode_ne (fresh h)
  · rw [last, queued.next_last split, firstNode_nil]

theorem remqueue_queued (split : lists h = l₁ ++ x :: l₂) :
    Queued (remqueue links (Sum.inr x)) (update lists h (l₁ ++ l₂)) :=
  queued.remove split (remqueue_removed (queued.next_ne split))

theorem dequeueHead_nil (empty : lists h = []) :
    dequeueHead links (Sum.inl h) = none :=
  if_pos ((queued.empty_iff h).mpr empty)

theorem dequeueHead_cons (split : lists h = x :: l) :
    dequeueHead links (Sum.inl h) = some (Sum.inr x, remqueue links (Sum.inr x)) := by
  have split' : lists h = [] ++ x :: l := split
  have first : links.next (Sum.inl h) = Sum.inr x := by
    rw [queued.next_head, split, firstNode_cons]
  rw [← first]
  apply dequeueHead_eq
  · rw [first, queued.prev_elem split', lastNode_nil]
  · rw [first]
    exact Sum.inr_ne_inl
  · rw [first]
    exact queued.next_ne split'

theorem enqueueHead_queued (fresh : ∀ h, x ∉ lists h) :
    Queued (enqueueHead links (.inl h) (.inr x)) (update lists h (x :: lists h)) := by
  have same : enqueueHead links (.inl h) (.inr x) = insque links (.inr x) (.inl h) := by
    simp [enqueueHead, insque, setNext, setPrev]
  rw [same]
  exact insque_queued queued (List.nil_append (lists h)).symm fresh

/-- Taking the last element is taking that element out. -/
theorem dequeueTail_concat (split : lists h = l ++ [x]) :
    dequeueTail links (.inl h) = some (.inr x, remqueue links (.inr x)) := by
  have last : links.prev (.inl h) = .inr x := by
    rw [queued.prev_head, split, lastNode_concat]
  have next : links.next (.inr x) = .inl h := queued.next_elem split
  rw [dequeueTail, last, if_neg Sum.inr_ne_inl]
  simp [remqueue, setNext, setPrev, next]

end Queues

section Runs

variable {H E : Type*}

/-- A call of the queue package, for queues with the heads `H` and the elements `E`. -/
inductive QueueCall (H E : Type*) where
  | head (h : H) (x : E)
  | tail (h : H) (x : E)
  | insert (x y : E)
  | takeHead (h : H)
  | takeTail (h : H)
  | remove (x : E)

variable [DecidableEq H] [DecidableEq E]

/-- The element that a call returns, and the links after it. -/
def QueueCall.perform (links : Links (H ⊕ E)) : QueueCall H E → Option (H ⊕ E) × Links (H ⊕ E)
  | .head h x => (none, enqueueHead links (.inl h) (.inr x))
  | .tail h x => (none, enqueueTail links (.inl h) (.inr x))
  | .insert x y => (none, insque links (.inr x) (.inr y))
  | .takeHead h => (dequeueHead links (.inl h)).elim (none, links) (Prod.map some id)
  | .takeTail h => (dequeueTail links (.inl h)).elim (none, links) (Prod.map some id)
  | .remove x => (none, remqueue links (.inr x))

/-- The elements that a sequence of calls returns, and the links after it. -/
def performAll (links : Links (H ⊕ E)) :
    List (QueueCall H E) → List (Option (H ⊕ E)) × Links (H ⊕ E)
  | [] => ([], links)
  | call :: calls => (performAll (call.perform links).2 calls).map ((call.perform links).1 :: ·) id

/-- What a call does to lists, and the element that it returns. -/
inductive QueueCall.Does (lists : H → List E) : QueueCall H E → Option E → (H → List E) → Prop
  | head {h : H} {x : E} (fresh : ∀ h, x ∉ lists h) :
      Does lists (.head h x) none (update lists h (x :: lists h))
  | tail {h : H} {x : E} (fresh : ∀ h, x ∉ lists h) :
      Does lists (.tail h x) none (update lists h (lists h ++ [x]))
  | insert {h : H} {x y : E} {l₁ l₂ : List E} (fresh : ∀ h, x ∉ lists h)
      (split : lists h = l₁ ++ y :: l₂) :
      Does lists (.insert x y) none (update lists h (l₁ ++ y :: x :: l₂))
  | takeHead {h : H} {x : E} {l : List E} (split : lists h = x :: l) :
      Does lists (.takeHead h) (some x) (update lists h l)
  | noHead {h : H} (empty : lists h = []) : Does lists (.takeHead h) none lists
  | takeTail {h : H} {x : E} {l : List E} (split : lists h = l ++ [x]) :
      Does lists (.takeTail h) (some x) (update lists h l)
  | noTail {h : H} (empty : lists h = []) : Does lists (.takeTail h) none lists
  | remove {h : H} {x : E} {l₁ l₂ : List E} (split : lists h = l₁ ++ x :: l₂) :
      Does lists (.remove x) none (update lists h (l₁ ++ l₂))

/-- What a sequence of calls does to lists, with what each of them returns. -/
inductive QueueRun : (H → List E) → List (QueueCall H E × Option E) → (H → List E) → Prop
  | nil (lists : H → List E) : QueueRun lists [] lists
  | cons {lists lists' lists'' : H → List E} {call : QueueCall H E} {returned : Option E}
      {rest : List (QueueCall H E × Option E)} (does : call.Does lists returned lists')
      (run : QueueRun lists' rest lists'') : QueueRun lists ((call, returned) :: rest) lists''

variable {links : Links (H ⊕ E)} {lists lists' : H → List E}

/-- A call does to the queues what it does to the lists. -/
theorem QueueCall.Does.performed (queued : Queued links lists) {call : QueueCall H E}
    {returned : Option E} (does : call.Does lists returned lists') :
    (call.perform links).1 = returned.map .inr ∧ Queued (call.perform links).2 lists' := by
  cases does with
  | head fresh => exact ⟨rfl, enqueueHead_queued queued fresh⟩
  | tail fresh => exact ⟨rfl, enqueueTail_queued queued fresh⟩
  | @insert h x y l₁ l₂ fresh split =>
    -- behind `y` is behind the last of `l₁ ++ [y]`
    have inserted := insque_queued queued
      (split.trans (List.append_assoc l₁ [y] l₂).symm) fresh
    rw [lastNode_concat, List.append_assoc] at inserted
    exact ⟨rfl, inserted⟩
  | takeHead split =>
    rw [perform, dequeueHead_cons queued split]
    exact ⟨rfl, remqueue_queued queued (split.trans (List.nil_append _).symm)⟩
  | noHead empty =>
    rw [perform, dequeueHead_nil queued empty]
    exact ⟨rfl, queued⟩
  | takeTail split =>
    have removed := remqueue_queued queued split
    rw [List.append_nil] at removed
    rw [perform, dequeueTail_concat queued split]
    exact ⟨rfl, removed⟩
  | @noTail h empty =>
    have self : links.prev (.inl h) = .inl h := by
      rw [queued.prev_head, empty]
      rfl
    rw [perform, dequeueTail, if_pos self]
    exact ⟨rfl, queued⟩
  | remove split => exact ⟨rfl, remqueue_queued queued split⟩

/-- From queues that are empty, any sequence of calls returns what it would return for lists, and
leaves links that stand for those lists. -/
theorem queue_refines {calls : List (QueueCall H E × Option E)}
    (empty : ∀ h, links.next (.inl h) = .inl h ∧ links.prev (.inl h) = .inl h)
    (run : QueueRun (fun _ => []) calls lists) :
    (performAll links (calls.map Prod.fst)).1 = calls.map (fun call => call.2.map .inr) ∧
      Queued (performAll links (calls.map Prod.fst)).2 lists := by
  have queued : Queued links fun _ => [] := ⟨fun h => ⟨⟨(empty h).1, (empty h).2⟩,
    List.nodup_singleton _⟩, fun mem => absurd mem List.not_mem_nil⟩
  clear empty
  -- the induction needs the links and lists in the middle of a run
  generalize (fun _ => [] : H → List E) = start at run queued
  induction run generalizing links with
  | nil => exact ⟨rfl, queued⟩
  | cons does _ ih =>
    obtain ⟨returned, queued'⟩ := does.performed queued
    obtain ⟨rest, queued''⟩ := ih queued'
    exact ⟨congrArg₂ List.cons returned rest, queued''⟩

/-- An element is inserted behind the first of two, and is the last one that is taken. -/
theorem queue_refines_three :
    (performAll (⟨id, id⟩ : Links (Unit ⊕ ℕ)) [.tail () 1, .head () 2, .insert 3 2, .takeHead (),
      .takeTail (), .takeHead ()]).1 =
      [none, none, none, some (.inr 2), some (.inr 1), some (.inr 3)] :=
  (queue_refines (fun _ => ⟨rfl, rfl⟩) (.cons (.tail (by simp)) (.cons (.head (by simp))
    (.cons (@QueueCall.Does.insert _ _ _ _ () 3 2 [] [1] (by simp) rfl) (.cons (.takeHead rfl)
      (.cons (.takeTail (l := [3]) rfl) (.cons (.takeHead rfl) (.nil _)))))))).1

end Runs

end Darwin.Kern
