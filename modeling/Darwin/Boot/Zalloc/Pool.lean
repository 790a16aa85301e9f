import Darwin.Boot.Zalloc.Tables
import Darwin.Lib.Runs

/-!
# The pool of the boot allocator

Over every run of `malloc` and `free` calls the blocks and the available ranges partition the pool,
and the available ranges stay in order and apart, as long as the calls ask for blocks that are not
empty and the tables have room.  The pool is not the one `malloc_init` is given: the tables are taken
from the front of the memory without being taken from its size, so the pool ends past the end of the
memory by the size of the tables.

## Main results

* `State.Managed.malloc`, `State.Managed.free` — what one call does to the partition
* `pool_partition` — the partition over a run, and that it is inside the memory only when that is
  empty
-/

namespace Darwin.Boot.Zalloc

open Function (update_self)
open List Darwin.Lib State

/-! ## Freeing a block -/

section Free

variable {z : State} {count i nodes start tsize : ℕ}

/-- What `free` leaves in the table of available ranges: those there were and the block, with the
ranges that touch joined. -/
structure Returned (z : State) (start tsize nodes : ℕ) (available : List Zmem) : Prop where
  apart : Apart available
  cover : ∀ a, cover available a = cover [⟨start, tsize⟩] a + cover z.available a
  nonempty : ∀ r ∈ available, 0 < r.size
  room : available.length ≤ nodes

/-- The state in which `free` looks for the place of a block: the available ranges are in order and
the block lies in none of them. -/
structure Placing (z : State) (start tsize nodes : ℕ) : Prop where
  total : z.totalNodes = nodes
  room : z.availableNodes < nodes
  fits : Fits z.available
  apart : Apart z.available
  nonempty : ∀ r ∈ z.available, 0 < r.size
  positive : 0 < tsize
  noWrap : start + tsize < 2 ^ 32
  outside : ∀ r ∈ z.available, start + tsize ≤ r.start ∨ r.stop ≤ start

/-- Ranges that cover what the block and the available ranges cover do not wrap either. -/
private theorem fits_of_covers {rs : List Zmem} (placing : Placing z start tsize nodes)
    (nonempty : ∀ r ∈ rs, 0 < r.size)
    (covers : ∀ a, cover rs a = cover [⟨start, tsize⟩] a + cover z.available a) : Fits rs := by
  intro r mem
  have positive := nonempty r mem
  have last : r.Has (r.stop - 1) := by
    unfold Range.Has Range.stop
    omega
  have covered : 0 < cover rs (r.stop - 1) := cover_pos_iff.mpr ⟨r, mem, last⟩
  rw [covers] at covered
  rcases Nat.eq_zero_or_pos (cover z.available (r.stop - 1)) with none_there | there
  · rw [none_there, cover_mk] at covered
    have noWrap := placing.noWrap
    split_ifs at covered with inside
    · omega
    · omega
  · obtain ⟨r', mem', has⟩ := cover_pos_iff.mp there
    have stop := placing.fits r' mem'
    have below := has.2
    omega

/-- The block is in the table, in one of two parts that touch in one place at most. -/
private theorem returned_coalesce {l₁ l₂ : List Zmem} {zavailable : ℕ → Zmem} {availableNodes : ℕ}
    (placing : Placing z start tsize nodes) (split : slice zavailable 0 availableNodes = l₁ ++ l₂)
    (room : availableNodes ≤ nodes) (apart₁ : Apart l₁) (apart₂ : Apart l₂)
    (order : ∀ r ∈ l₁, ∀ r' ∈ l₂, r.stop ≤ r'.start) (nonempty : ∀ r ∈ l₁ ++ l₂, 0 < r.size)
    (covers : ∀ a, cover (l₁ ++ l₂) a = cover [⟨start, tsize⟩] a + cover z.available a) :
    ∃ zavailable' availableNodes',
      zcoalesce { z with zavailable := zavailable, availableNodes := availableNodes } =
        { z with zavailable := zavailable', availableNodes := availableNodes' } ∧
      Returned z start tsize nodes (slice zavailable' 0 availableNodes') := by
  have fits : Fits (available
      { z with zavailable := zavailable, availableNodes := availableNodes }) := by
    rw [available, split]
    exact fits_of_covers placing nonempty covers
  obtain ⟨zavailable', availableNodes', moved, entries⟩ := @zcoalesce_spec
    { z with zavailable := zavailable, availableNodes := availableNodes } nodes placing.total room fits
  refine ⟨zavailable', availableNodes', moved, ?_⟩
  rw [available, split] at entries
  rw [entries]
  constructor
  case apart =>
    exact apart_coalesce apart₁ apart₂ (fun r mem => nonempty r (mem_append_right _ mem)) order
  case cover =>
    intro a
    rw [cover_coalesce, covers]
  case nonempty =>
    intro r mem
    exact size_of_mem_coalesce nonempty mem
  case room =>
    have shorter := length_coalesce_le (l₁ ++ l₂)
    have length := congrArg List.length split
    rw [length_slice] at length
    omega

/-- A range that touches the one after it from below is joined to it. -/
private theorem lists_above {front back : List Zmem} {w : Zmem}
    (apart : Apart (front ++ w :: back)) (before : ∀ r ∈ front, r.stop ≤ start)
    (touch : start + tsize = w.start) :
    Apart front ∧ Apart (⟨start, w.size + tsize⟩ :: back) ∧
      (∀ r ∈ front, ∀ r' ∈ (⟨start, w.size + tsize⟩ :: back : List Zmem), r.stop ≤ r'.start) ∧
      ∀ a, cover (front ++ ⟨start, w.size + tsize⟩ :: back) a =
        cover [⟨start, tsize⟩] a + cover (front ++ w :: back) a := by
  obtain ⟨apartFront, apartBack, order⟩ := apart_append.mp apart
  rw [apart_cons] at apartBack
  refine ⟨apartFront, ?_, ?_, ?_⟩
  · rw [apart_cons]
    refine ⟨fun r mem => ?_, apartBack.2⟩
    have after := apartBack.1 r mem
    rw [Range.stop_mk]
    unfold Range.stop at after
    omega
  · intro r mem r' mem'
    rcases mem_cons.mp mem' with rfl | later
    · exact before r mem
    · exact Nat.le_of_lt (order r mem r' (mem_cons_of_mem _ later))
  · intro a
    have joined := cover_join start tsize w.size a
    have same : Range.mk w.start w.size = w := rfl
    rw [touch, Nat.add_comm tsize w.size, same] at joined
    rw [cover_append, cover_append, cover_cons, cover_cons w, ← joined]
    omega

/-- A range that touches the one before it from above is joined to it. -/
private theorem lists_below {front back : List Zmem} {u w : Zmem}
    (apart : Apart (front ++ [u] ++ w :: back)) (touch : u.stop = start)
    (outside : start + tsize ≤ w.start ∨ w.stop ≤ start) :
    Apart (front ++ [⟨u.start, u.size + tsize⟩]) ∧ Apart (w :: back) ∧
      (∀ r ∈ (front ++ [⟨u.start, u.size + tsize⟩] : List Zmem), ∀ r' ∈ w :: back,
        r.stop ≤ r'.start) ∧
      ∀ a, cover (front ++ [⟨u.start, u.size + tsize⟩] ++ w :: back) a =
        cover [⟨start, tsize⟩] a + cover (front ++ [u] ++ w :: back) a := by
  obtain ⟨apartFront, apartBack, order⟩ := apart_append.mp apart
  obtain ⟨apartFront, -, last⟩ := apart_append.mp apartFront
  have gap : u.stop < w.start := order u (by simp) w (mem_cons_self ..)
  have room : start + tsize ≤ w.start := by
    unfold Range.stop at gap outside touch
    omega
  refine ⟨?_, apartBack, ?_, ?_⟩
  · rw [apart_append]
    refine ⟨apartFront, Apart.single _, fun r mem r' mem' => ?_⟩
    rw [mem_singleton.mp mem']
    exact last r mem u (mem_singleton_self u)
  · intro r mem r' mem'
    rcases mem_append.mp mem with old | new
    · exact Nat.le_of_lt (order r (mem_append_left _ old) r' mem')
    have after : w.start ≤ r'.start := by
      rcases mem_cons.mp mem' with rfl | later
      · exact Nat.le_refl _
      · have next := (apart_cons.mp apartBack).1 r' later
        unfold Range.stop at next
        omega
    rw [mem_singleton.mp new, Range.stop_mk]
    unfold Range.stop at touch
    omega
  · intro a
    have joined := cover_join u.start u.size tsize a
    have start_eq : u.start + u.size = start := touch
    rw [start_eq] at joined
    have same : Range.mk u.start u.size = u := rfl
    rw [same] at joined
    rw [cover_append, cover_append, cover_append, cover_append, ← joined]
    omega

/-- A range that touches neither neighbour goes between them. -/
private theorem lists_between {front back : List Zmem} {w : Zmem}
    (apart : Apart (front ++ w :: back)) (nonempty : ∀ r ∈ front, 0 < r.size)
    (before : ∀ r ∈ front, r.stop ≤ start)
    (notLast : ∀ u, front.getLast? = some u → u.stop ≠ start) (after : start + tsize < w.start) :
    Apart (front ++ ⟨start, tsize⟩ :: w :: back) := by
  obtain ⟨apartFront, apartBack, order⟩ := apart_append.mp apart
  rw [apart_append, apart_cons]
  refine ⟨apartFront, ⟨?_, apartBack⟩, ?_⟩
  · intro r mem
    rw [Range.stop_mk]
    rcases mem_cons.mp mem with rfl | later
    · exact after
    · have next := (apart_cons.mp apartBack).1 r later
      unfold Range.stop at next
      omega
  · intro r mem r' mem'
    have strict : r.stop < start := by
      obtain ⟨init, last, rfl⟩ : ∃ init last, front = init ++ [last] :=
        ⟨_, _, (dropLast_concat_getLast (ne_nil_of_mem mem)).symm⟩
      have lastBefore := before last (by simp)
      have touching := notLast last (by simp)
      rcases mem_append.mp mem with early | late
      · have gap := (apart_append.mp apartFront).2.2 r early last (mem_singleton_self last)
        unfold Range.stop at *
        omega
      · rw [mem_singleton.mp late]
        omega
    rcases mem_cons.mp mem' with rfl | later
    · exact strict
    have next : w.start ≤ r'.start := by
      rcases mem_cons.mp later with rfl | rest
      · exact Nat.le_refl _
      · have gap := (apart_cons.mp apartBack).1 r' rest
        unfold Range.stop at gap
        omega
    omega

/-- The loop of `free`, when every range before `i` ends before the block. -/
theorem freeFrom_spec (placing : Placing z start tsize nodes) (left : i + count = z.availableNodes)
    (before : ∀ r ∈ slice z.zavailable 0 i, r.stop ≤ start) :
    ∃ zavailable availableNodes, freeFrom start tsize count i z =
        { z with zavailable := zavailable, availableNodes := availableNodes } ∧
      Returned z start tsize nodes (slice zavailable 0 availableNodes) := by
  have room := placing.room
  have positive := placing.positive
  have noWrap : addr start tsize = start + tsize := Nat.mod_eq_of_lt placing.noWrap
  induction count generalizing i with
  | zero =>
    -- Every range ends before the block, so it goes to the end of the table.
    have all : i = z.availableNodes := by omega
    subst all
    rw [freeFrom]
    refine @returned_coalesce z nodes start tsize z.available [⟨start, tsize⟩] _ _ placing ?_ room
      placing.apart (Apart.single _) ?_ ?_ ?_
    · rw [slice_succ (Nat.zero_le _), slice_update_of_le (Nat.le_refl _), update_self,
        available]
    · intro r mem r' mem'
      rw [mem_singleton.mp mem']
      exact before r mem
    · intro r mem
      rcases mem_append.mp mem with old | new
      · exact placing.nonempty r old
      · rw [mem_singleton.mp new]
        exact positive
    · intro a
      rw [cover_append, Nat.add_comm]
  | succ count ih =>
    have inside : i < z.availableNodes := by omega
    have split : z.available = slice z.zavailable 0 i ++ z.zavailable i ::
        slice z.zavailable (i + 1) z.availableNodes :=
      slice_split (Nat.zero_le i) inside
    have apart := placing.apart
    have nonempty := placing.nonempty
    have aside := placing.outside (z.zavailable i) (mem_slice.mpr ⟨i, Nat.zero_le i, inside, rfl⟩)
    rw [split] at apart nonempty
    rw [freeFrom, noWrap]
    split_ifs with above below between
    · obtain ⟨apart₁, apart₂, order, covers⟩ := lists_above apart before above
      refine returned_coalesce placing ?_ (Nat.le_of_lt room) apart₁ apart₂ order ?_ ?_
      · rw [slice_split (Nat.zero_le i) inside, slice_update_of_le (Nat.le_refl i),
          update_self, slice_update_of_lt (Nat.lt_succ_self i)]
      · intro r mem
        rcases mem_append.mp mem with early | late
        · exact nonempty r (mem_append_left _ early)
        · rcases mem_cons.mp late with rfl | later
          · exact Nat.add_pos_right _ positive
          · exact nonempty r (by simp [later])
      · rwa [← split] at covers
    · obtain ⟨later, touch⟩ := below
      have lastMem : z.zavailable (i - 1) ∈ z.available :=
        mem_slice.mpr ⟨i - 1, Nat.zero_le _, by omega, rfl⟩
      rw [zend_eq (placing.fits _ lastMem)] at touch
      have pred : i - 1 + 1 = i := by omega
      have init : slice z.zavailable 0 i =
          slice z.zavailable 0 (i - 1) ++ [z.zavailable (i - 1)] := by
        rw [← slice_succ (Nat.zero_le _), pred]
      rw [init] at apart split nonempty
      obtain ⟨apart₁, apart₂, order, covers⟩ := lists_below apart touch aside
      refine returned_coalesce placing ?_ (Nat.le_of_lt room) apart₁ apart₂ order ?_ ?_
      · rw [slice_split (Nat.zero_le (i - 1)) (by omega), slice_update_of_le (Nat.le_refl _),
          update_self, slice_update_of_lt (show i - 1 < i - 1 + 1 by omega), pred,
          ← slice_cons inside, append_assoc, singleton_append]
      · intro r mem
        rcases mem_append.mp mem with early | late
        · rcases mem_append.mp early with first | new
          · exact nonempty r (by simp [first])
          · rw [mem_singleton.mp new]
            exact Nat.add_pos_right _ positive
        · exact nonempty r (mem_append_right _ late)
      · rwa [← split] at covers
    · refine ⟨_, _, rfl, ?_⟩
      have notLast : ∀ u, (slice z.zavailable 0 i).getLast? = some u → u.stop ≠ start := by
        intro u last touch
        rcases Nat.eq_zero_or_pos i with zero | later
        · subst zero
          rw [slice_self] at last
          cases last
        rw [← Nat.sub_add_cancel later, slice_succ (Nat.zero_le _), List.getLast?_concat] at last
        cases last
        have lastMem : z.zavailable (i - 1) ∈ z.available :=
          mem_slice.mpr ⟨i - 1, Nat.zero_le _, by omega, rfl⟩
        rw [← zend_eq (placing.fits _ lastMem)] at touch
        exact below ⟨later, touch⟩
      have entries := @slice_zinsert z.zavailable i z.availableNodes nodes ⟨start, tsize⟩
        (Nat.le_of_lt inside) room
      rw [placing.total, entries, slice_cons inside]
      constructor
      case apart =>
        exact lists_between apart (fun r mem => nonempty r (mem_append_left _ mem)) before
          notLast between
      case cover =>
        intro a
        rw [split, cover_append, cover_append, cover_cons ⟨start, tsize⟩]
        omega
      case nonempty =>
        intro r mem
        rcases mem_append.mp mem with early | late
        · exact nonempty r (mem_append_left _ early)
        · rcases mem_cons.mp late with rfl | later
          · exact positive
          · exact nonempty r (mem_append_right _ later)
      case room =>
        rw [← slice_cons inside, ← entries, length_slice]
        exact room
    · refine @ih (i + 1) (by omega) ?_
      intro r mem
      rw [slice_succ (Nat.zero_le i)] at mem
      rcases mem_append.mp mem with early | late
      · exact before r early
      · rw [mem_singleton.mp late]
        omega

end Free

/-! ## The calls -/

section Calls

variable {z z' : State} {low high nodes size pointer : ℕ}

/-- The tables partition `[low, high)` into blocks and ranges that are not empty. -/
structure State.Managed (z : State) (low high nodes : ℕ) : Prop where
  base : z.zallocBase ≠ 0
  total : z.totalNodes = nodes
  tiles : Tiles (z.alloced ++ z.available) low high
  apart : Apart z.available
  nonempty : ∀ r ∈ z.alloced ++ z.available, 0 < r.size
  allocedNodes_le : z.allocedNodes ≤ nodes
  availableNodes_le : z.availableNodes ≤ nodes

/-- A request for a block that is not empty after it has been rounded. -/
def Request (size : ℕ) : Prop := 0 < size ∧ size ≤ 2 ^ 32 - 16

theorem Request.le_roundSize (request : Request size) : size ≤ roundSize size := by
  obtain ⟨positive, small⟩ := request
  unfold roundSize
  omega

theorem State.Managed.fits (managed : z.Managed low high nodes) (bound : high < 2 ^ 32) :
    Fits z.available := by
  intro r mem
  have inside := managed.tiles.inside (mem_append_right _ mem)
    (managed.nonempty r (mem_append_right _ mem))
  omega

theorem cover_remainder {r : Zmem} (fit : size ≤ r.size) (a : ℕ) :
    cover [⟨r.start, size⟩] a + cover (remainder r size) a = cover [r] a := by
  unfold remainder
  split_ifs with same
  · rw [← same]
    rfl
  · have whole : size + (r.size - size) = r.size := by omega
    rw [cover_join, whole]

theorem size_of_mem_remainder {r r' : Zmem} (fit : size ≤ r.size) (mem : r' ∈ remainder r size) :
    0 < r'.size := by
  unfold remainder at mem
  split_ifs at mem with same
  · cases mem
  · rw [mem_singleton.mp mem]
    exact Nat.sub_pos_of_lt (by omega)

theorem apart_remainder {r : Zmem} {front back : List Zmem} (fit : size ≤ r.size)
    (apart : Apart (front ++ r :: back)) : Apart (front ++ remainder r size ++ back) := by
  obtain ⟨apartFront, apartBack, order⟩ := apart_append.mp apart
  rw [apart_cons] at apartBack
  unfold remainder
  split_ifs with same
  · rw [append_nil, apart_append]
    exact ⟨apartFront, apartBack.2, fun u mem v mem' => order u mem v (mem_cons_of_mem _ mem')⟩
  rw [append_assoc, singleton_append, apart_append, apart_cons]
  refine ⟨apartFront, ⟨fun v mem => ?_, apartBack.2⟩, fun u mem v mem' => ?_⟩
  · have after := apartBack.1 v mem
    unfold Range.stop at after ⊢
    dsimp only
    omega
  · rcases mem_cons.mp mem' with rfl | later
    · have gap := order u mem r (mem_cons_self ..)
      exact Nat.lt_of_lt_of_le gap (Nat.le_add_right _ _)
    · exact order u mem v (mem_cons_of_mem _ later)

theorem length_remainder_le (r : Zmem) (size : ℕ) : (remainder r size).length ≤ 1 := by
  unfold remainder
  split_ifs
  · exact Nat.zero_le 1
  · exact Nat.le_refl 1

/-- The table of blocks after an allocation. -/
theorem alloced_zallocate (z : State) (start size : ℕ) :
    (zallocate z start size).alloced = z.alloced ++ [⟨start, size⟩] := by
  show slice (Function.update z.zalloced z.allocedNodes ⟨start, size⟩) 0 (z.allocedNodes + 1) = _
  rw [alloced, slice_succ (Nat.zero_le _), slice_update_of_le (Nat.le_refl _), update_self]

/-- The blocks that are handed out make room in the table. -/
def MallocRoom (z : State) (nodes size : ℕ) : Prop :=
  (∃ r ∈ z.available, roundSize size ≤ r.size) → z.allocedNodes < nodes

/-- `malloc` returns nothing and changes nothing, or hands out a part of an available range. -/
theorem State.Managed.malloc (managed : z.Managed low high nodes) (bound : high < 2 ^ 32)
    (request : Request size) (room : MallocRoom z nodes size) {result : ℕ}
    (allocated : malloc z size = (result, z')) :
    z'.Managed low high nodes ∧ (result ≠ 0 →
      z'.alloced = z.alloced ++ [⟨result, roundSize size⟩]) := by
  have positive : 0 < roundSize size := Nat.lt_of_lt_of_le request.1 request.le_roundSize
  unfold Zalloc.malloc at allocated
  rw [if_neg managed.base] at allocated
  rcases mallocFrom_spec managed.total managed.availableNodes_le (managed.fits bound)
    (Nat.zero_add _) allocated with ⟨rfl, rfl⟩ |
    ⟨front, r, back, zavailable, availableNodes, split, fit, rfl, rfl, entries⟩
  · exact ⟨managed, fun nonzero => absurd rfl nonzero⟩
  have alloced := alloced_zallocate z r.start (roundSize size)
  have available : available { zallocate z r.start (roundSize size) with
      zavailable := zavailable, availableNodes := availableNodes } =
      front ++ remainder r (roundSize size) ++ back := entries
  have blocks : State.alloced { zallocate z r.start (roundSize size) with
      zavailable := zavailable, availableNodes := availableNodes } =
      z.alloced ++ [⟨r.start, roundSize size⟩] := alloced
  have before := managed.tiles
  have nonempty := managed.nonempty
  have apart := managed.apart
  have member : r ∈ z.available := by
    rw [split]
    simp
  rw [split] at before nonempty apart
  refine ⟨?_, fun _ => blocks⟩
  constructor
  case base => exact managed.base
  case total => exact managed.total
  case tiles =>
    rw [blocks, available]
    apply before.congr
    intro a
    have parts := cover_remainder fit a
    simp only [cover_append, cover_cons r back]
    omega
  case apart =>
    rw [available]
    exact apart_remainder fit apart
  case nonempty =>
    rw [blocks, available]
    intro r' mem
    simp only [mem_append, mem_singleton] at mem
    rcases mem with (old | rfl) | (early | rest) | late
    · exact nonempty r' (by simp [old])
    · exact positive
    · exact nonempty r' (by simp [early])
    · exact size_of_mem_remainder fit rest
    · exact nonempty r' (by simp [late])
  case allocedNodes_le => exact room ⟨r, member, fit⟩
  case availableNodes_le =>
    have length := congrArg List.length entries
    have whole := congrArg List.length split
    have least := managed.availableNodes_le
    have short := length_remainder_le r (roundSize size)
    rw [State.available] at whole
    simp only [length_slice, length_append, length_cons] at length whole
    show availableNodes ≤ nodes
    omega

/-- A block that is given back finds room in the table. -/
def FreeRoom (z : State) (nodes pointer : ℕ) : Prop :=
  (∃ r ∈ z.alloced, r.start = pointer) → z.availableNodes < nodes

/-- `free` keeps the partition. -/
theorem State.Managed.free (managed : z.Managed low high nodes) (bound : high < 2 ^ 32)
    (room : FreeRoom z nodes pointer) : (free z pointer).Managed low high nodes := by
  unfold Zalloc.free
  by_cases null : pointer = 0
  · rw [if_pos null]
    exact managed
  rw [if_neg null]
  cases taken : takeBlock pointer z.allocedNodes 0 z with
  | none => exact managed
  | some found =>
    obtain ⟨tsize, z₁⟩ := found
    obtain ⟨front, back, zalloced, split, rfl, entries⟩ :=
      takeBlock_spec managed.total managed.allocedNodes_le (Nat.zero_add _) taken
    have tiles := managed.tiles
    have nonempty := managed.nonempty
    rw [split] at tiles nonempty
    have member : (⟨pointer, tsize⟩ : Zmem) ∈ front ++ ⟨pointer, tsize⟩ :: back ++ z.available := by
      simp
    have inside := tiles.inside member (nonempty _ member)
    have space : z.availableNodes < nodes := by
      apply room
      refine ⟨⟨pointer, tsize⟩, ?_, rfl⟩
      rw [split]
      simp
    have placing : Placing { z with zalloced := zalloced, allocedNodes := z.allocedNodes - 1 }
        pointer tsize nodes := by
      constructor
      case total => exact managed.total
      case room => exact space
      case fits => exact managed.fits bound
      case apart => exact managed.apart
      case nonempty => exact fun r mem => nonempty r (mem_append_right _ mem)
      case positive => exact nonempty _ member
      case noWrap =>
        have last := inside.2
        rw [Range.stop_mk] at last
        omega
      case outside =>
        intro r mem
        have disjoint := (pairwise_append.mp tiles.pairwise).2.2 ⟨pointer, tsize⟩ (by simp) r mem
        exact Range.before_or_after (nonempty _ member)
          (nonempty r (mem_append_right _ mem)) disjoint
    obtain ⟨zavailable, availableNodes, moved, returned⟩ :=
      freeFrom_spec placing (Nat.zero_add _) (by
        rw [slice_self]
        intro r mem
        cases mem)
    show (freeFrom pointer tsize z.availableNodes 0
      { z with zalloced := zalloced, allocedNodes := z.allocedNodes - 1 }).Managed low high nodes
    rw [moved]
    have alloced : alloced { z with
        zalloced := zalloced, allocedNodes := z.allocedNodes - 1, zavailable := zavailable,
        availableNodes := availableNodes } = front ++ back := entries
    constructor
    case base => exact managed.base
    case total => exact managed.total
    case tiles =>
      rw [alloced]
      apply tiles.congr
      intro a
      have covers := returned.cover a
      have same : available { z with
          zalloced := zalloced, allocedNodes := z.allocedNodes - 1 } = z.available := rfl
      rw [same] at covers
      simp only [cover_append, available, cover_cons ⟨pointer, tsize⟩ back] at covers ⊢
      omega
    case apart => exact returned.apart
    case nonempty =>
      rw [alloced]
      intro r mem
      simp only [mem_append] at mem
      rcases mem with (early | late) | free
      · exact nonempty r (by simp [early])
      · exact nonempty r (by simp [late])
      · exact returned.nonempty r free
    case allocedNodes_le => exact Nat.le_trans (Nat.sub_le _ _) managed.allocedNodes_le
    case availableNodes_le =>
      have length := returned.room
      rwa [length_slice, Nat.sub_zero] at length

end Calls

/-! ## Runs -/

section Runs

variable {z z' : State} {low high start size nodes : ℕ}

/-- A call of the allocator. -/
inductive Call where
  | malloc (size : ℕ)
  | free (pointer : ℕ)

/-- The state after a call. -/
def State.call (z : State) : Call → Option State
  | .malloc size => some (malloc z size).2
  | .free pointer => some (free z pointer)

/-- The calls whose block is not empty and that the tables have room for. -/
def Admitted (nodes : ℕ) (z : State) : Call → Prop
  | .malloc size => Request size ∧ MallocRoom z nodes size
  | .free pointer => FreeRoom z nodes pointer

/-- What holds of the tables when `[low, high)` is the pool: blocks and available ranges are
disjoint, lie inside the pool and cover it, the available ranges are in order and do not touch,
neither table holds more than `nodes` entries, and what `malloc` returns is a range of the pool that
is not allocated and as large as requested. -/
structure PoolOk (z : State) (low high nodes : ℕ) : Prop where
  disjoint : (z.alloced ++ z.available).Pairwise fun r r' => ∀ a, ¬ (r.Has a ∧ r'.Has a)
  cover : ∀ a, (∃ r ∈ z.alloced ++ z.available, r.Has a) ↔ low ≤ a ∧ a < high
  inside : ∀ r ∈ z.alloced ++ z.available, low ≤ r.start ∧ r.stop ≤ high
  apart : Apart z.available
  allocedNodes_le : z.allocedNodes ≤ nodes
  availableNodes_le : z.availableNodes ≤ nodes
  fresh : ∀ n p z', Request n → MallocRoom z nodes n → malloc z n = (p, z') → p ≠ 0 →
    ∃ size ≥ n, (⟨p, size⟩ : Zmem) ∈ z'.alloced ∧ low ≤ p ∧ p + size ≤ high ∧
      ∀ r ∈ z.alloced, ∀ a, ¬ (r.Has a ∧ (Range.mk p size).Has a)

theorem State.Managed.poolOk (managed : z.Managed low high nodes) (bound : high < 2 ^ 32) :
    PoolOk z low high nodes := by
  constructor
  case disjoint => exact managed.tiles.pairwise
  case cover =>
    intro a
    rw [← cover_pos_iff, managed.tiles a]
    split_ifs with inside
    · simp [inside]
    · simp [inside]
  case inside => exact fun r mem => managed.tiles.inside mem (managed.nonempty r mem)
  case apart => exact managed.apart
  case allocedNodes_le => exact managed.allocedNodes_le
  case availableNodes_le => exact managed.availableNodes_le
  case fresh =>
    intro n p z' request room allocated nonzero
    obtain ⟨managed', blocks⟩ := managed.malloc bound request room allocated
    have alloced := blocks nonzero
    have member : (⟨p, roundSize n⟩ : Zmem) ∈ z'.alloced := by
      rw [alloced]
      simp
    have both := mem_append_left z'.available member
    have inside := managed'.tiles.inside both (managed'.nonempty _ both)
    have disjoint := (pairwise_append.mp managed'.tiles.pairwise).1
    rw [alloced, pairwise_append] at disjoint
    refine ⟨_, request.le_roundSize, member, inside.1, inside.2, fun r mem => ?_⟩
    exact disjoint.2.2 r mem _ (mem_singleton_self _)

/-- A node count that a `short` can hold. -/
private theorem toShort_eq (short : nodes < 2 ^ 15) : toShort nodes = nodes := by
  rw [toShort, Int.bmod_def]
  omega

@[simp] theorem mallocInit_totalNodes (z : State) (start size nodes : ℕ) :
    (mallocInit z start size nodes).totalNodes = toShort nodes := by
  rw [mallocInit]

/-- The state `malloc_init` leaves. -/
theorem managed_mallocInit (z : State) (based : 0 < start) (several : 0 < nodes)
    (short : nodes < 2 ^ 15) (nonempty : 0 < size) (addressable : start + 16 * nodes + size < 2 ^ 32) :
    (mallocInit z start size nodes).Managed (start + 16 * nodes) (start + 16 * nodes + size)
      nodes := by
  have first : addr (addr start (sizeofZmem * nodes)) (sizeofZmem * nodes) = start + 16 * nodes := by
    unfold addr sizeofZmem
    omega
  have available : (mallocInit z start size nodes).available = [⟨start + 16 * nodes, size⟩] := by
    rw [available, mallocInit, first]
    dsimp only
    rw [slice_cons Nat.zero_lt_one, slice_self, update_self]
  have alloced : (mallocInit z start size nodes).alloced = [] := slice_self _ _
  constructor
  case base => exact Nat.pos_iff_ne_zero.mp based
  case total =>
    rw [mallocInit_totalNodes, toShort_eq short]
  case tiles =>
    rw [alloced, available]
    exact tiles_single _ _
  case apart =>
    rw [available]
    exact Apart.single _
  case nonempty =>
    rw [alloced, available]
    intro r mem
    rw [mem_singleton.mp mem]
    exact nonempty
  case allocedNodes_le => exact Nat.zero_le _
  case availableNodes_le => exact several

/-- Along every run of calls that the tables have room for, the blocks and the available ranges
partition a pool of the size `malloc_init` is given, behind the tables.  The pool is never the rest
of the memory `malloc_init` is given, which ends earlier by the size of the tables. -/
theorem pool_partition (z₀ : State) (based : 0 < start) (several : 0 < nodes)
    (short : nodes < 2 ^ 15) (nonempty : 0 < size) (addressable : start + 16 * nodes + size < 2 ^ 32)
    (run : Run call (Admitted nodes) (mallocInit z₀ start size nodes) z) :
    PoolOk z (start + 16 * nodes) (start + 16 * nodes + size) nodes ∧
      ¬ PoolOk z (start + 16 * nodes) (start + size) nodes := by
  have step : ∀ {t u : State} {call : Call},
      t.Managed (start + 16 * nodes) (start + 16 * nodes + size) nodes → Admitted nodes t call →
      t.call call = some u → u.Managed (start + 16 * nodes) (start + 16 * nodes + size) nodes := by
    intro t u call managed admitted called
    cases call with
    | malloc n =>
      cases called
      exact (managed.malloc addressable admitted.1 admitted.2 rfl).1
    | free pointer =>
      cases called
      exact managed.free addressable admitted
  have managed := run.invariant
    (managed_mallocInit z₀ based several short nonempty addressable) step
  have partition := managed.poolOk addressable
  refine ⟨partition, fun memory => ?_⟩
  -- The last byte of the pool is covered, and lies past the end of the memory.
  obtain ⟨r, mem, has⟩ := (partition.cover (start + 16 * nodes + size - 1)).mpr (by omega)
  have inside := (memory.cover (start + 16 * nodes + size - 1)).mp ⟨r, mem, has⟩
  omega

/-- The static variables before `malloc_init`. -/
def unset : State :=
  ⟨0, fun _ => ⟨0, 0⟩, fun _ => ⟨0, 0⟩, 0, 0, 0⟩

/-- The allocator with two nodes in the 64 bytes from `0x1000` on. -/
def twoNodes : State := mallocInit unset 0x1000 64 2

theorem twoNodes_run : Run call (Admitted 2) twoNodes (free (malloc twoNodes 10).2 0x1020) := by
  have first : Run call (Admitted 2) twoNodes (malloc twoNodes 10).2 :=
    .step .start (show Admitted 2 twoNodes (.malloc 10) from ⟨by unfold Request; decide,
      fun _ => by decide⟩) rfl
  exact .step first (show Admitted 2 _ (.free 0x1020) from fun _ => by decide) rfl

theorem pool_partition_twoNodes :
    PoolOk (free (malloc twoNodes 10).2 0x1020) 0x1020 0x1060 2 ∧
      ¬ PoolOk (free (malloc twoNodes 10).2 0x1020) 0x1020 0x1040 2 :=
  pool_partition unset (by decide) (by decide) (by decide) (by decide) (by decide) twoNodes_run

/-- `malloc_init` makes 64 bytes available from `0x1020` on, of which only 32 are in the memory it
is given. -/
theorem pool_past_memory :
    twoNodes.available = [⟨0x1020, 64⟩] ∧ ¬ PoolOk twoNodes 0x1020 0x1040 2 := by
  have available : twoNodes.available = [⟨0x1020, 64⟩] := by decide
  refine ⟨available, fun memory => ?_⟩
  have inside := (memory.inside ⟨0x1020, 64⟩ (by simp [available])).2
  exact absurd inside (by decide)

end Runs

end Darwin.Boot.Zalloc
