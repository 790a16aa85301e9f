import Mathlib.Data.List.GetD
import Mathlib.Tactic.Linarith

/-!
# Sizes of tables

A model of `ipc_table_fill` and `ipc_table_init`.  Tables of entries and of dead-name requests grow
through an array of sizes: powers of two up to a page, then steps of one page, two pages and so on.
The array for dead-name requests ends with a size of zero; the array for entries ends with two equal
sizes.  `pageSize` is `PAGE_SIZE`, which the kernel sets when it starts.

## Main results

* `sizes_fill` — every size holds the minimum and the sizes increase
* `dnrequestsSizes_lt` — the sizes for dead-name requests increase up to the final zero
* `entries_mono`, `entries_last` — the sizes for entries do not decrease, and the last two are equal
-/

namespace Darwin.Ipc.Table

open List

/-- The second loop of `ipc_table_fill`: increments of a page, then of two pages, and so on, each
fifteen times.  `num` counts the places still to fill. -/
def fillPages (pageSize minsize elemsize : ℕ) : (fuel num period incrsize size : ℕ) → List ℕ
  | 0, _, _, _, _ => []
  | fuel + 1, num, period, incrsize, size =>
    if num = 0 then []
    else
      let next := size + incrsize
      let incr := if period = 14 ∧ incrsize < pageSize * 8 then incrsize * 2 else incrsize
      let period := if period = 14 then 0 else period + 1
      if minsize ≤ size then
        size / elemsize :: fillPages pageSize minsize elemsize fuel (num - 1) period incr next
      else fillPages pageSize minsize elemsize fuel num period incr next

/-- The first loop of `ipc_table_fill`, powers of two up to the page size, and what follows it.
Its bound is the width of `vm_size_t`. -/
def fillPowers (pageSize minsize elemsize : ℕ) : (fuel num size : ℕ) → List ℕ
  | 0, num, size => fillPages pageSize minsize elemsize (num + minsize) num 0 pageSize size
  | fuel + 1, num, size =>
    if num = 0 then []
    else if size < pageSize then
      if minsize ≤ size then
        size / elemsize :: fillPowers pageSize minsize elemsize fuel (num - 1) (size * 2)
      else fillPowers pageSize minsize elemsize fuel num (size * 2)
    else fillPages pageSize minsize elemsize (num + minsize) num 0 pageSize size

/-- `ipc_table_fill`. -/
def ipcTableFill (pageSize num min elemsize : ℕ) : List ℕ :=
  fillPowers pageSize (min * elemsize) elemsize 32 num 1

/-- `ITS_SIZE_NONE`. -/
def itsSizeNone : BitVec 32 := -1#32

/-- `ipc_table_dnrequests_size`. -/
def ipcTableDnrequestsSize : ℕ := 64

/-- `sizeof(struct ipc_port_request)`. -/
def portRequestBytes : ℕ := 8

/-- `ipc_table_dnrequests`, as `ipc_table_init` fills it: the last size is zero. -/
def ipcTableDnrequests (pageSize index : ℕ) : ℕ :=
  (ipcTableFill pageSize (ipcTableDnrequestsSize - 1) 2 portRequestBytes ++ [0]).getD index 0

/-- `ipc_table_entries_size`. -/
def ipcTableEntriesSize : ℕ := 512

/-- `sizeof(struct ipc_entry)`. -/
def entryBytes : ℕ := 16

/-- `ipc_table_entries`, as `ipc_table_init` fills it: the last two sizes are the same. -/
def ipcTableEntries (pageSize index : ℕ) : ℕ :=
  let its := ipcTableFill pageSize (ipcTableEntriesSize - 1) 4 entryBytes
  (its ++ [its.getD (ipcTableEntriesSize - 2) 0]).getD index 0

section Fill

variable {pageSize min elemsize : ℕ}

/-- A list of increasing numbers, none below `low`. -/
def IncreasingFrom (low : ℕ) (sizes : List ℕ) : Prop :=
  sizes.Pairwise (· < ·) ∧ ∀ size ∈ sizes, low ≤ size

theorem IncreasingFrom.nil (low : ℕ) : IncreasingFrom low [] :=
  ⟨List.Pairwise.nil, fun _ mem => absurd mem not_mem_nil⟩

theorem IncreasingFrom.mono {low low' : ℕ} {sizes : List ℕ} (le : low' ≤ low)
    (increasing : IncreasingFrom low sizes) : IncreasingFrom low' sizes :=
  ⟨increasing.1, fun size mem => le.trans (increasing.2 size mem)⟩

theorem IncreasingFrom.cons {low : ℕ} {sizes : List ℕ} (rest : IncreasingFrom (low + 1) sizes) :
    IncreasingFrom low (low :: sizes) := by
  refine ⟨pairwise_cons.mpr ⟨fun size mem => rest.2 size mem, rest.1⟩, ?_⟩
  intro size mem
  rcases mem_cons.mp mem with rfl | mem
  · exact le_rfl
  · exact (Nat.le_succ _).trans (rest.2 size mem)

theorem div_add_one_le (size : ℕ) {incr : ℕ} (pos : 0 < elemsize) (large : elemsize ≤ incr) :
    size / elemsize + 1 ≤ (size + incr) / elemsize := by
  rw [← Nat.add_div_right size pos]
  exact Nat.div_le_div_right (by omega)

variable (pos : 0 < elemsize)

include pos

/-- The page steps give increasing sizes, each large enough for the minimum. -/
theorem increasing_fillPages (fuel num period incrsize size : ℕ) (large : elemsize ≤ incrsize) :
    IncreasingFrom (size / elemsize)
      (fillPages pageSize (min * elemsize) elemsize fuel num period incrsize size) ∧
    ∀ x ∈ fillPages pageSize (min * elemsize) elemsize fuel num period incrsize size, min ≤ x := by
  induction fuel generalizing num period incrsize size with
  | zero => exact ⟨.nil _, fun _ mem => absurd mem not_mem_nil⟩
  | succ fuel ih =>
    have step := div_add_one_le size pos large
    have grows : elemsize ≤
        (if period = 14 ∧ incrsize < pageSize * 8 then incrsize * 2 else incrsize) := by
      split <;> omega
    rw [fillPages]
    split
    · exact ⟨.nil _, fun _ mem => absurd mem not_mem_nil⟩
    dsimp only
    split
    next fits =>
      obtain ⟨increasing, minimum⟩ := ih (num - 1) (if period = 14 then 0 else period + 1) _
        (size + incrsize) grows
      refine ⟨(increasing.mono step).cons, fun x mem => ?_⟩
      rcases mem_cons.mp mem with rfl | mem
      · exact (Nat.le_div_iff_mul_le pos).mpr fits
      · exact minimum x mem
    next =>
      obtain ⟨increasing, minimum⟩ := ih num (if period = 14 then 0 else period + 1) _
        (size + incrsize) grows
      exact ⟨increasing.mono ((Nat.le_succ _).trans step), minimum⟩

/-- So do the powers of two before them. -/
theorem increasing_fillPowers (some : 0 < min) (page : elemsize ≤ pageSize) (fuel num size : ℕ) :
    IncreasingFrom (size / elemsize) (fillPowers pageSize (min * elemsize) elemsize fuel num size) ∧
    ∀ x ∈ fillPowers pageSize (min * elemsize) elemsize fuel num size, min ≤ x := by
  induction fuel generalizing num size with
  | zero => exact increasing_fillPages pos _ _ _ _ _ page
  | succ fuel ih =>
    rw [fillPowers]
    split
    · exact ⟨.nil _, fun _ mem => absurd mem not_mem_nil⟩
    split
    · split
      next fits =>
        have large : elemsize ≤ size := (Nat.le_mul_of_pos_left elemsize some).trans fits
        have step := div_add_one_le size pos large
        obtain ⟨increasing, minimum⟩ := ih (num - 1) (size * 2)
        rw [Nat.mul_two] at increasing
        refine ⟨?_, fun x mem => ?_⟩
        · rw [Nat.mul_two]
          exact (increasing.mono step).cons
        · rcases mem_cons.mp mem with rfl | mem
          · exact (Nat.le_div_iff_mul_le pos).mpr fits
          · exact minimum x mem
      next =>
        obtain ⟨increasing, minimum⟩ := ih num (size * 2)
        exact ⟨increasing.mono (Nat.div_le_div_right (by omega)), minimum⟩
    · exact increasing_fillPages pos _ _ _ _ _ page

/-- `ipc_table_fill` gives increasing sizes, none below the minimum. -/
theorem sizes_fill (some : 0 < min) (page : elemsize ≤ pageSize) (num : ℕ) :
    (ipcTableFill pageSize num min elemsize).Pairwise (· < ·) ∧
    ∀ size ∈ ipcTableFill pageSize num min elemsize, min ≤ size :=
  have filled := increasing_fillPowers pos some page 32 num 1
  ⟨filled.1.1, filled.2⟩

/-- The page steps fill all places, given room to come up to the minimum. -/
theorem length_fillPages (minsize fuel num period incrsize size : ℕ)
    (large : elemsize ≤ incrsize) (enough : num + (minsize - size) ≤ fuel) :
    (fillPages pageSize minsize elemsize fuel num period incrsize size).length = num := by
  induction fuel generalizing num period incrsize size with
  | zero =>
    rw [fillPages, length_nil]
    omega
  | succ fuel ih =>
    have grows : elemsize ≤
        (if period = 14 ∧ incrsize < pageSize * 8 then incrsize * 2 else incrsize) := by
      split <;> omega
    rw [fillPages]
    split
    next none => exact none.symm
    next some =>
      dsimp only
      split
      next fits =>
        rw [length_cons, ih _ _ _ _ grows (by omega)]
        omega
      next small => exact ih _ _ _ _ grows (by omega)

/-- `ipc_table_fill` fills all places. -/
theorem length_fillPowers (page : elemsize ≤ pageSize) (minsize fuel num size : ℕ) :
    (fillPowers pageSize minsize elemsize fuel num size).length = num := by
  induction fuel generalizing num size with
  | zero => exact length_fillPages pos _ _ _ _ _ _ page (by omega)
  | succ fuel ih =>
    rw [fillPowers]
    split
    next none => exact none.symm
    next some =>
      split
      · split
        · rw [length_cons, ih]
          omega
        · exact ih _ _
      · exact length_fillPages pos _ _ _ _ _ _ page (by omega)

end Fill

section Dnrequests

variable {pageSize i j : ℕ}

theorem getD_append_zero (sizes : List ℕ) (i : ℕ) : (sizes ++ [0]).getD i 0 = sizes.getD i 0 := by
  rcases lt_or_ge i sizes.length with mem | outside
  · rw [getD_append _ _ _ _ mem]
  · rw [getD_append_right _ _ _ _ outside, getD_eq_default _ _ outside]
    cases i - sizes.length <;> rfl

theorem ipcTableDnrequests_eq (pageSize i : ℕ) : ipcTableDnrequests pageSize i =
    (ipcTableFill pageSize (ipcTableDnrequestsSize - 1) 2 portRequestBytes).getD i 0 :=
  getD_append_zero _ i

/-- The array of sizes ends within its 64 elements. -/
theorem dnrequests_end (page : portRequestBytes ≤ pageSize)
    (last : ipcTableDnrequestsSize - 1 ≤ i) :
    ipcTableDnrequests pageSize i = 0 := by
  rw [ipcTableDnrequests_eq]
  exact getD_eq_default _ _ ((length_fillPowers (by decide) page _ _ _ _).trans_le last)

theorem dnrequests_mem (used : ipcTableDnrequests pageSize i ≠ 0) :
    ∃ mem : i < (ipcTableFill pageSize (ipcTableDnrequestsSize - 1) 2 portRequestBytes).length,
      ipcTableDnrequests pageSize i =
        (ipcTableFill pageSize (ipcTableDnrequestsSize - 1) 2 portRequestBytes).get
          ⟨i, mem⟩ := by
  rw [ipcTableDnrequests_eq] at used ⊢
  have mem : i <
      (ipcTableFill pageSize (ipcTableDnrequestsSize - 1) 2 portRequestBytes).length := by
    by_contra outside
    exact used (getD_eq_default _ _ (not_lt.mp outside))
  exact ⟨mem, getD_eq_getElem _ _ mem⟩

/-- Every table for dead-name requests has two slots at least. -/
theorem two_le_dnrequests (page : portRequestBytes ≤ pageSize)
    (used : ipcTableDnrequests pageSize i ≠ 0) : 2 ≤ ipcTableDnrequests pageSize i := by
  obtain ⟨mem, eq⟩ := dnrequests_mem used
  rw [eq]
  exact (sizes_fill (by decide) (by decide) page _).2 _ (get_mem _ _)

/-- The sizes for dead-name requests increase up to the final zero. -/
theorem dnrequestsSizes_lt (page : portRequestBytes ≤ pageSize) (lt : i < j)
    (used : ipcTableDnrequests pageSize j ≠ 0) :
    ipcTableDnrequests pageSize i < ipcTableDnrequests pageSize j := by
  obtain ⟨mem, eq⟩ := dnrequests_mem used
  have sorted := (sizes_fill (by decide : 0 < portRequestBytes) (by decide : 0 < 2) page
    (ipcTableDnrequestsSize - 1)).1
  have before := lt.trans mem
  rw [eq, ipcTableDnrequests_eq, getD_eq_getElem _ _ before]
  exact pairwise_iff_getElem.mp sorted i j before mem lt

end Dnrequests

section Entries

variable {pageSize i j : ℕ}

/-- The array that `ipc_table_fill` leaves in `ipc_table_entries`, before its last place. -/
def entrySizes (pageSize : ℕ) : List ℕ :=
  ipcTableFill pageSize (ipcTableEntriesSize - 1) 4 entryBytes

variable (page : entryBytes ≤ pageSize)

include page

theorem length_entrySizes :
    (entrySizes pageSize).length = ipcTableEntriesSize - 1 :=
  length_fillPowers (by decide) page _ _ _ _

/-- Up to the last two, the sizes are those that `ipc_table_fill` computed. -/
theorem ipcTableEntries_eq (mem : i < ipcTableEntriesSize) :
    ipcTableEntries pageSize i =
      (entrySizes pageSize).getD (min i (ipcTableEntriesSize - 2)) 0 := by
  have length := length_entrySizes page
  change (entrySizes pageSize ++ [(entrySizes pageSize).getD (ipcTableEntriesSize - 2) 0]).getD i 0
    = _
  unfold ipcTableEntriesSize at mem length ⊢
  rcases lt_or_ge i (512 - 1) with before | last
  · rw [getD_append _ _ _ _ (by omega), Nat.min_eq_left (by omega)]
  · rw [getD_append_right _ _ _ _ (by omega), Nat.min_eq_right (by omega),
      show i - (entrySizes pageSize).length = 0 by omega]
    rfl

/-- The last two sizes are the same. -/
theorem entries_last :
    ipcTableEntries pageSize (ipcTableEntriesSize - 2) =
      ipcTableEntries pageSize (ipcTableEntriesSize - 1) := by
  rw [ipcTableEntries_eq page (by decide), ipcTableEntries_eq page (by decide)]
  rfl

/-- The sizes of tables of entries do not decrease. -/
theorem entries_mono (le : i ≤ j) (mem : j < ipcTableEntriesSize) :
    ipcTableEntries pageSize i ≤ ipcTableEntries pageSize j := by
  have length := length_entrySizes page
  have sorted : (entrySizes pageSize).Pairwise (· < ·) :=
    (sizes_fill (by decide : 0 < entryBytes) (by decide : 0 < 4) page (ipcTableEntriesSize - 1)).1
  rw [ipcTableEntries_eq page (le.trans_lt mem), ipcTableEntries_eq page mem]
  have below : min j (ipcTableEntriesSize - 2) < (entrySizes pageSize).length := by
    rw [length]
    exact (min_le_right _ _).trans_lt (by decide)
  have ordered : min i (ipcTableEntriesSize - 2) ≤ min j (ipcTableEntriesSize - 2) := by omega
  rcases ordered.eq_or_lt with same | lt
  · rw [same]
  · rw [getD_eq_getElem _ _ below, getD_eq_getElem _ _ (lt.trans below)]
    exact (pairwise_iff_getElem.mp sorted _ _ (lt.trans below) below lt).le

end Entries

end Darwin.Ipc.Table
