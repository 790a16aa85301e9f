import Darwin.Boot.Zalloc.Basic

/-!
# The tables as lists

The entries in use of the two tables, and what the routines do to them as lists: `zdelete` and
`zinsert` move every entry up to the end of the table, and so remove and insert one entry of the
part in use; `zcoalesce` joins the first two entries that touch.
-/

namespace Darwin.Boot.Zalloc

open Darwin.Lib
open Function (update update_of_ne update_self)

/-- The blocks handed out. -/
def State.alloced (z : State) : List Zmem := slice z.zalloced 0 z.allocedNodes

/-- The ranges available. -/
def State.available (z : State) : List Zmem := slice z.zavailable 0 z.availableNodes

section Shift

variable {zp : ℕ → Zmem} {count i j k n ndx nodes : ℕ} {x : Zmem}

theorem shiftDown_of_lt (before : j < i) : shiftDown count i zp j = zp j := by
  induction count generalizing i zp with
  | zero => rfl
  | succ count ih =>
    rw [shiftDown, ih (by omega), update_of_ne (by omega)]

theorem shiftDown_of_le (lower : i ≤ j) (upper : j < i + count) :
    shiftDown count i zp j = zp (j + 1) := by
  induction count generalizing i zp with
  | zero => omega
  | succ count ih =>
    rw [shiftDown]
    rcases Nat.eq_or_lt_of_le lower with rfl | after
    · rw [shiftDown_of_lt (Nat.lt_succ_self i), update_self]
    · rw [ih (by omega) (by omega), update_of_ne (by omega)]

theorem shiftUp_of_le (before : j ≤ ndx) : shiftUp ndx count zp j = zp j := by
  induction count generalizing zp with
  | zero => rfl
  | succ count ih => rw [shiftUp, ih, update_of_ne (by omega)]

theorem shiftUp_of_gt (after : ndx + count < j) : shiftUp ndx count zp j = zp j := by
  induction count generalizing zp with
  | zero => rfl
  | succ count ih => rw [shiftUp, ih (by omega), update_of_ne (by omega)]

theorem shiftUp_succ (lower : ndx ≤ j) (upper : j < ndx + count) :
    shiftUp ndx count zp (j + 1) = zp j := by
  induction count generalizing zp with
  | zero => omega
  | succ count ih =>
    rw [shiftUp]
    by_cases last : j = ndx + count
    · rw [last, shiftUp_of_gt (by omega), update_self]
    · rw [ih (by omega), update_of_ne (by omega)]

/-- `zdelete` removes one of the entries in use. -/
theorem slice_zdelete (mem : k < n) (room : n ≤ nodes) :
    slice (zdelete nodes zp k) 0 (n - 1) = slice zp 0 k ++ slice zp (k + 1) n := by
  have front : slice (zdelete nodes zp k) 0 k = slice zp 0 k := by
    apply slice_congr
    intro j _ before
    exact shiftDown_of_lt before
  have back : slice zp (k + 1) (n - 1 + 1) = slice (zdelete nodes zp k) k (n - 1) := by
    apply slice_shift
    intro j lower upper
    exact (shiftDown_of_le lower (by omega)).symm
  rw [← slice_append (Nat.zero_le k) (by omega), front, ← back, Nat.sub_add_cancel (by omega)]

/-- `zinsert` makes room for an entry among those in use. -/
theorem slice_zinsert (mem : k ≤ n) (room : n < nodes) :
    slice (update (zinsert nodes zp k) k x) 0 (n + 1) =
      slice zp 0 k ++ x :: slice zp k n := by
  have front : slice (zinsert nodes zp k) 0 k = slice zp 0 k := by
    apply slice_congr
    intro j _ before
    exact shiftUp_of_le (Nat.le_of_lt before)
  have back : slice (zinsert nodes zp k) (k + 1) (n + 1) = slice zp k n := by
    apply slice_shift
    intro j lower upper
    exact shiftUp_succ lower (by omega)
  rw [slice_split (Nat.zero_le k) (by omega), slice_update_of_le (Nat.le_refl _),
    slice_update_of_lt (Nat.lt_succ_self k), update_self, front, back]

end Shift

section Coalesce

variable {z : State} {count i nodes : ℕ}

/-- The entries do not wrap around the end of the address space. -/
def Fits (rs : List Zmem) : Prop := ∀ r ∈ rs, r.stop < 2 ^ 32

theorem zend_eq {r : Zmem} (fits : r.stop < 2 ^ 32) : zend r = r.stop := Nat.mod_eq_of_lt fits

private theorem zcoalesceFrom_spec (total : z.totalNodes = nodes) (room : z.availableNodes ≤ nodes)
    (fits : Fits z.available) (left : i + count = z.availableNodes - 1) :
    ∃ zavailable availableNodes, zcoalesceFrom count i z =
        { z with zavailable := zavailable, availableNodes := availableNodes } ∧
      slice zavailable 0 availableNodes =
        slice z.zavailable 0 i ++ coalesce (slice z.zavailable i z.availableNodes) := by
  induction count generalizing i with
  | zero =>
    refine ⟨_, _, rfl, ?_⟩
    have last : coalesce (slice z.zavailable i z.availableNodes) =
        slice z.zavailable i z.availableNodes := by
      rcases Nat.lt_or_ge i z.availableNodes with mem | outside
      · have one : z.availableNodes = i + 1 := by omega
        rw [one, slice_cons (Nat.lt_succ_self i), slice_self, coalesce]
      · have none_left : z.availableNodes = i := by omega
        rw [none_left, slice_self, coalesce]
    rw [last, slice_append (Nat.zero_le i) (by omega)]
  | succ count ih =>
    have first : i < z.availableNodes := by omega
    have second : i + 1 < z.availableNodes := by omega
    have noWrap : zend (z.zavailable i) = (z.zavailable i).stop :=
      zend_eq (fits _ (mem_slice.mpr ⟨i, Nat.zero_le i, first, rfl⟩))
    rw [zcoalesceFrom, noWrap, slice_cons first, slice_cons second]
    split_ifs with touch
    · refine ⟨_, _, rfl, ?_⟩
      rw [coalesce, if_pos touch, total, slice_zdelete second room,
        slice_succ (Nat.zero_le i), slice_update_of_le (Nat.le_refl _), update_self,
        slice_update_of_lt (show i < i + 1 + 1 by omega), List.append_assoc, List.singleton_append]
    · obtain ⟨zavailable, availableNodes, moved, entries⟩ := @ih (i + 1) (by omega)
      refine ⟨zavailable, availableNodes, moved, ?_⟩
      rw [entries, coalesce, if_neg touch, ← slice_cons second, slice_succ (Nat.zero_le i),
        List.append_assoc, List.singleton_append]

/-- `zcoalesce` joins the first two entries that touch. -/
theorem zcoalesce_spec (total : z.totalNodes = nodes) (room : z.availableNodes ≤ nodes)
    (fits : Fits z.available) :
    ∃ zavailable availableNodes, zcoalesce z =
        { z with zavailable := zavailable, availableNodes := availableNodes } ∧
      slice zavailable 0 availableNodes = coalesce z.available := by
  obtain ⟨zavailable, availableNodes, moved, entries⟩ :=
    @zcoalesceFrom_spec z (z.availableNodes - 1) 0 nodes total room fits (Nat.zero_add _)
  rw [slice_self, List.nil_append] at entries
  exact ⟨zavailable, availableNodes, moved, entries⟩

end Coalesce

/-! ## The loops of `malloc` and `free` -/

section Loops

variable {z z' : State} {count i n nodes size start tsize result : ℕ}

/-- What is left of a range after `size` bytes were taken from its front. -/
def remainder (r : Zmem) (size : ℕ) : List Zmem :=
  if r.size = size then [] else [⟨r.start + size, r.size - size⟩]

/-- `malloc` takes the front of one of the available ranges, or nothing. -/
theorem mallocFrom_spec (total : z.totalNodes = nodes) (room : z.availableNodes ≤ nodes)
    (fits : Fits z.available) (left : i + count = z.availableNodes)
    (allocated : mallocFrom size count i z = (result, z')) :
    result = 0 ∧ z' = z ∨
    ∃ front r back zavailable availableNodes, z.available = front ++ r :: back ∧ size ≤ r.size ∧
      result = r.start ∧ z' = { zallocate z r.start size with
        zavailable := zavailable, availableNodes := availableNodes } ∧
      slice zavailable 0 availableNodes = front ++ remainder r size ++ back := by
  induction count generalizing i with
  | zero =>
    cases allocated
    exact .inl ⟨rfl, rfl⟩
  | succ count ih =>
    have mem : i < z.availableNodes := by omega
    have split : z.available = slice z.zavailable 0 i ++ z.zavailable i ::
        slice z.zavailable (i + 1) z.availableNodes :=
      slice_split (Nat.zero_le i) mem
    rw [mallocFrom] at allocated
    split_ifs at allocated with same larger
    · cases allocated
      refine .inr ⟨_, _, _, _, _, split, Nat.le_of_eq same.symm, rfl, rfl, ?_⟩
      rw [remainder, if_pos same, List.append_nil]
      show slice (zdelete z.totalNodes z.zavailable i) 0 (z.availableNodes - 1) = _
      rw [total, slice_zdelete mem room]
    · cases allocated
      refine .inr ⟨_, _, _, _, _, split, Nat.le_of_lt larger, rfl, rfl, ?_⟩
      have stop := fits _ (mem_slice.mpr ⟨i, Nat.zero_le i, mem, rfl⟩)
      have noWrap : addr (z.zavailable i).start size = (z.zavailable i).start + size := by
        apply Nat.mod_eq_of_lt
        unfold Range.stop at stop
        omega
      show slice (update z.zavailable i
        ⟨addr (z.zavailable i).start size, (z.zavailable i).size - size⟩) 0 z.availableNodes = _
      rw [remainder, if_neg same, noWrap, slice_split (Nat.zero_le i) mem, slice_update_of_le (Nat.le_refl _), update_self,
        slice_update_of_lt (Nat.lt_succ_self i), List.append_assoc, List.singleton_append]
    · exact @ih (i + 1) (by omega) allocated

/-- The first loop of `free` takes the block out of the table. -/
theorem takeBlock_spec (total : z.totalNodes = nodes) (room : z.allocedNodes ≤ nodes)
    (left : i + count = z.allocedNodes)
    (taken : takeBlock start count i z = some (tsize, z')) :
    ∃ front back zalloced, z.alloced = front ++ ⟨start, tsize⟩ :: back ∧
      z' = { z with zalloced := zalloced, allocedNodes := z.allocedNodes - 1 } ∧
      slice zalloced 0 (z.allocedNodes - 1) = front ++ back := by
  induction count generalizing i with
  | zero => cases taken
  | succ count ih =>
    have mem : i < z.allocedNodes := by omega
    rw [takeBlock] at taken
    split_ifs at taken with found
    · cases taken
      have same : z.zalloced i = ⟨start, (z.zalloced i).size⟩ := by
        rw [← found]
      refine ⟨slice z.zalloced 0 i, slice z.zalloced (i + 1) z.allocedNodes, _, ?_, rfl, ?_⟩
      · rw [← same]
        exact slice_split (Nat.zero_le i) mem
      · rw [total, slice_zdelete mem room]
    · exact @ih (i + 1) (by omega) taken

end Loops

end Darwin.Boot.Zalloc
