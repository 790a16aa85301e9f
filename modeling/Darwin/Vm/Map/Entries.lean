import Darwin.Vm.Map.Basic
import Mathlib.Algebra.BigOperators.Group.List.Basic
import Mathlib.Data.List.Nodup

/-!
# The list of entries under the operations' loops

The invariant of the list, how it survives each way the operations change the list (an entry is
removed, split, changed in place, inserted or extended), and what the two loops over a range do to
the addresses.
-/

namespace Darwin.Vm.Map

open List Darwin.Lib

variable {O : Type*} {lo hi stop a m : ℕ} {c : Counts} {l l₁ l₂ rest before : List (Entry O)}
  {d d₁ d₂ e : Entry O}

/-! ## The invariant of the list -/

/-- The size of the ranges of a list. -/
def rangeSum (l : List (Entry O)) : ℤ := (l.map fun e => (e.stop : ℤ) - e.start).sum

/-- The list is in order inside of the bounds, its entries are distinct, and the counters count
it. -/
structure ListInv (lo hi : ℕ) (c : Counts) (l : List (Entry O)) : Prop where
  segments : Segments Entry.start Entry.stop lo l hi
  distinct : (l.map Entry.id).Nodup
  old : ∀ e ∈ l, e.id < c.nextId
  nentries : c.nentries = l.length
  size : c.size = rangeSum l
  noSubMap : ∀ e ∈ l, e.isSubMap = false

/-- A pointer denotes the header, or an entry of the list. -/
def Denotes (l : List (Entry O)) (pointer : Option ℕ) : Prop :=
  ∀ id, pointer = some id → id ∈ l.map Entry.id

theorem rangeSum_append : rangeSum (l₁ ++ l₂) = rangeSum l₁ + rangeSum l₂ := by
  rw [rangeSum, map_append, sum_append, rangeSum, rangeSum]

theorem rangeSum_cons : rangeSum (e :: l) = (e.stop - e.start) + rangeSum l := by
  rw [rangeSum, map_cons, sum_cons, rangeSum]

theorem ListInv.notMem (inv : ListInv lo hi c (l₁ ++ e :: l₂)) :
    e.id ∉ (l₁ ++ l₂).map Entry.id ∧ ((l₁ ++ l₂).map Entry.id).Nodup := by
  have distinct := inv.distinct
  rw [map_append, map_cons, nodup_middle, nodup_cons, ← map_append] at distinct
  exact distinct

/-- An entry is removed. -/
theorem ListInv.remove (inv : ListInv lo hi c (l₁ ++ e :: l₂)) :
    ListInv lo hi { c with nentries := c.nentries - 1, size := c.size - (e.stop - e.start) }
      (l₁ ++ l₂) where
  segments := by
    obtain ⟨first, low, order, -, second⟩ := segments_append.mp inv.segments
    exact segments_append.mpr ⟨first, second.weaken (by omega)⟩
  distinct := inv.notMem.2
  old d mem := inv.old d (by
    rcases mem_append.mp mem with mem | mem
    · exact mem_append_left _ mem
    · exact mem_append_right _ (mem_cons_of_mem _ mem))
  nentries := by
    show c.nentries - 1 = _
    rw [inv.nentries, length_append, length_append, length_cons]
    omega
  size := by
    show c.size - _ = _
    rw [inv.size, rangeSum_append, rangeSum_append, rangeSum_cons]
    omega
  noSubMap d mem := inv.noSubMap d (by
    rcases mem_append.mp mem with mem | mem
    · exact mem_append_left _ mem
    · exact mem_append_right _ (mem_cons_of_mem _ mem))

/-- A new entry is linked in where there is room for it. -/
theorem ListInv.insert (inv : ListInv lo hi c (l₁ ++ l₂)) (new : d.id = c.nextId)
    (low : lastStop Entry.stop lo l₁ ≤ d.start) (order : d.start < d.stop) (high : d.stop ≤ hi)
    (room : ∀ e ∈ l₂, d.stop ≤ e.start) (plain : d.isSubMap = false) :
    ListInv lo hi ⟨c.nentries + 1, c.size + (d.stop - d.start), c.nextId + 1⟩ (l₁ ++ d :: l₂) where
  segments := by
    obtain ⟨first, second⟩ := segments_append.mp inv.segments
    exact segments_append.mpr ⟨first, low, order, high, second.after room⟩
  distinct := by
    rw [map_append, map_cons, nodup_middle, nodup_cons, ← map_append]
    refine ⟨fun mem => ?_, inv.distinct⟩
    obtain ⟨e, mem, same⟩ := mem_map.mp mem
    have := inv.old e mem
    omega
  old e mem := by
    rcases mem_append.mp mem with mem | mem
    · exact Nat.lt_succ_of_lt (inv.old e (mem_append_left _ mem))
    rcases mem_cons.mp mem with rfl | mem
    · rw [new]
      exact Nat.lt_succ_self _
    · exact Nat.lt_succ_of_lt (inv.old e (mem_append_right _ mem))
  nentries := by
    show c.nentries + 1 = _
    rw [inv.nentries, length_append, length_append, length_cons]
    omega
  size := by
    show c.size + _ = _
    rw [inv.size, rangeSum_append, rangeSum_append, rangeSum_cons]
    omega
  noSubMap e mem := by
    rcases mem_append.mp mem with mem | mem
    · exact inv.noSubMap e (mem_append_left _ mem)
    · rcases mem_cons.mp mem with rfl | mem
      · exact plain
      · exact inv.noSubMap e (mem_append_right _ mem)

variable (inv : ListInv lo hi c (l₁ ++ e :: l₂))

include inv

/-- An entry gets another range, between its neighbours, and other contents. -/
theorem ListInv.replace (same : d.id = e.id)
    (low : lastStop Entry.stop lo l₁ ≤ d.start) (order : d.start < d.stop) (high : d.stop ≤ hi)
    (room : ∀ e ∈ l₂, d.stop ≤ e.start) (plain : d.isSubMap = false) :
    ListInv lo hi { c with size := c.size + (d.stop - d.start) - (e.stop - e.start) }
      (l₁ ++ d :: l₂) where
  segments := by
    obtain ⟨first, -, -, -, second⟩ := segments_append.mp inv.segments
    exact segments_append.mpr ⟨first, low, order, high, second.after room⟩
  distinct := by
    rw [map_append, map_cons, same, ← map_cons, ← map_append]
    exact inv.distinct
  old f mem := by
    rcases mem_append.mp mem with mem | mem
    · exact inv.old f (mem_append_left _ mem)
    rcases mem_cons.mp mem with rfl | mem
    · rw [same]
      exact inv.old e (mem_append_cons_self)
    · exact inv.old f (mem_append_right _ (mem_cons_of_mem _ mem))
  nentries := by
    rw [inv.nentries, length_append, length_append, length_cons, length_cons]
  size := by
    show c.size + _ - _ = _
    rw [inv.size, rangeSum_append, rangeSum_append, rangeSum_cons, rangeSum_cons]
    omega
  noSubMap f mem := by
    rcases mem_append.mp mem with mem | mem
    · exact inv.noSubMap f (mem_append_left _ mem)
    · rcases mem_cons.mp mem with rfl | mem
      · exact plain
      · exact inv.noSubMap f (mem_append_right _ (mem_cons_of_mem _ mem))

/-- What is known of an entry inside of a list. -/
theorem ListInv.neighbours :
    lastStop Entry.stop lo l₁ ≤ e.start ∧ e.start < e.stop ∧ e.stop ≤ hi ∧
      (∀ d ∈ l₂, e.stop ≤ d.start) ∧ e.isSubMap = false := by
  obtain ⟨-, low, order, high, rest⟩ := segments_append.mp inv.segments
  exact ⟨low, order, high, fun d mem => (rest.bounds mem).1,
    inv.noSubMap e (mem_append_cons_self)⟩

/-- An entry is changed, but not moved. -/
theorem ListInv.change (same : d.id = e.id)
    (start : d.start = e.start) (stop : d.stop = e.stop) (plain : d.isSubMap = false) :
    ListInv lo hi c (l₁ ++ d :: l₂) := by
  obtain ⟨low, order, high, room, -⟩ := inv.neighbours
  have changed := inv.replace same (start ▸ low) (start ▸ stop ▸ order) (stop ▸ high)
    (stop ▸ room) plain
  rw [start, stop, add_sub_cancel_right] at changed
  exact changed

omit inv

theorem ListInv.of_size (inv : ListInv lo hi c l) {size : ℤ} (same : c.size = size) :
    ListInv lo hi { c with size := size } l :=
  same ▸ inv

variable (inv : ListInv lo hi c (l₁ ++ e :: l₂)) (low : e.start < m) (high : m < e.stop)

include inv low high

/-- The front of an entry is split off as a new entry. -/
theorem ListInv.splitFront :
    ListInv lo hi { c with nentries := c.nentries + 1, nextId := c.nextId + 1 }
      (l₁ ++ (e.front m).withId c.nextId :: e.back m :: l₂) := by
  obtain ⟨first, order, last, room, plain⟩ := inv.neighbours
  have shrunk : ListInv lo hi _ (l₁ ++ e.back m :: l₂) :=
    inv.replace rfl (by show _ ≤ m; omega) high last room plain
  have linked : ListInv lo hi _ (l₁ ++ (e.front m).withId c.nextId :: e.back m :: l₂) :=
    shrunk.insert rfl first low (by show m ≤ hi; omega) (fun d mem => by
      show m ≤ d.start
      rcases mem_cons.mp mem with rfl | mem
      · exact le_rfl
      · have := room d mem
        omega) plain
  refine linked.of_size ?_
  show c.size + (e.stop - m) - (e.stop - e.start) + ((m : ℤ) - e.start) = c.size
  omega

/-- The back of an entry is split off as a new entry. -/
theorem ListInv.splitBack :
    ListInv lo hi { c with nentries := c.nentries + 1, nextId := c.nextId + 1 }
      (l₁ ++ e.front m :: (e.back m).withId c.nextId :: l₂) := by
  obtain ⟨first, order, last, room, plain⟩ := inv.neighbours
  have shrunk : ListInv lo hi _ (l₁ ++ e.front m :: l₂) :=
    inv.replace rfl first low (by show m ≤ hi; omega) (fun d mem => by
      have := room d mem
      show m ≤ d.start
      omega) plain
  rw [append_cons] at shrunk
  have linked : ListInv lo hi _ (l₁ ++ [e.front m] ++ (e.back m).withId c.nextId :: l₂) :=
    shrunk.insert rfl (by rw [lastStop_concat]; exact le_rfl) high last room plain
  rw [← append_cons] at linked
  refine linked.of_size ?_
  show c.size + ((m : ℤ) - e.start) - (e.stop - e.start) + ((e.stop : ℤ) - m) = c.size
  omega

omit inv low high

/-! ## Addresses -/

theorem viewList_append (l₁ l₂ : List (Entry O)) (a : ℕ) :
    viewList (l₁ ++ l₂) a = (viewList l₁ a).or (viewList l₂ a) := by
  rw [viewList, viewList, viewList, entryAt, entryAt, entryAt, covering_append, Option.map_or]

theorem viewList_cons_of_inside (low : e.start ≤ a) (high : a < e.stop) (l : List (Entry O)) :
    viewList (e :: l) a = some (e.mapping a) := by
  rw [viewList, entryAt, covering_cons_of_inside low high]
  rfl

theorem viewList_cons_of_outside (outside : ¬ (e.start ≤ a ∧ a < e.stop)) (l : List (Entry O)) :
    viewList (e :: l) a = viewList l a := by
  rw [viewList, entryAt, covering_cons_of_outside outside]
  rfl

theorem viewList_of_stop_le (earlier : ∀ e ∈ l, e.stop ≤ a) : viewList l a = none := by
  rw [viewList, entryAt, covering_of_stop_le earlier]
  rfl

theorem viewList_of_lt_start (later : ∀ e ∈ l, a < e.start) : viewList l a = none := by
  rw [viewList, entryAt, covering_of_lt_start later]
  rfl

/-- The back of an entry maps its addresses as before. -/
theorem mapping_back (low : e.start ≤ m) (high : m ≤ a) : (e.back m).mapping a = e.mapping a := by
  rw [Entry.mapping, Entry.mapping, Entry.back]
  rw [BitVec.add_assoc, ← BitVec.ofNat_add, show m - e.start + (a - m) = a - e.start by omega]

theorem viewList_back (low : e.start ≤ m) (high : m ≤ a) (id : ℕ) (l : List (Entry O)) :
    viewList ((e.back m).withId id :: l) a = viewList (e :: l) a := by
  by_cases covers : a < e.stop
  · rw [viewList_cons_of_inside (e := (e.back m).withId id) high covers,
      viewList_cons_of_inside (by omega) covers]
    exact congrArg some (mapping_back low high)
  · rw [viewList_cons_of_outside (e := (e.back m).withId id) (fun mem => covers mem.2),
      viewList_cons_of_outside (fun mem => covers mem.2)]

theorem viewList_front (high : a < m) (mem : m ≤ e.stop) (id : ℕ) (l : List (Entry O)) :
    viewList ((e.front m).withId id :: l) a = viewList (e :: l) a := by
  by_cases covers : e.start ≤ a
  · rw [viewList_cons_of_inside (e := (e.front m).withId id) covers high,
      viewList_cons_of_inside covers (by omega)]
    rfl
  · rw [viewList_cons_of_outside (e := (e.front m).withId id) (fun mem => covers mem.1),
      viewList_cons_of_outside (fun mem => covers mem.1)]

/-! ## The loop of `vm_map_delete` -/

theorem deleteLoop_inv (inv : ListInv lo hi c (before ++ rest)) :
    ListInv lo hi (deleteLoop stop c rest).1 (before ++ (deleteLoop stop c rest).2) := by
  induction rest generalizing c with
  | nil => exact inv
  | cons e rest ih =>
    rw [deleteLoop]
    split_ifs with inRange past
    · refine ((inv.splitBack inRange past).remove).of_size ?_
      rfl
    · exact ih inv.remove
    · exact inv

/-- What the loop leaves of the list: nothing in front of `stop`, and everything after it. -/
theorem deleteLoop_view (segments : Segments Entry.start Entry.stop lo rest hi) :
    viewList (deleteLoop stop c rest).2 a = if a < stop then none else viewList rest a := by
  induction rest generalizing c lo with
  | nil => exact (ite_self _).symm
  | cons e rest ih =>
    obtain ⟨-, order, -, later⟩ := segments
    have after : ∀ d ∈ rest, e.stop ≤ d.start := fun d mem => (later.bounds mem).1
    rw [deleteLoop]
    split_ifs with inRange past low low low
    · -- the back of the entry starts at `stop`
      refine viewList_of_lt_start fun d mem => ?_
      rcases mem_cons.mp mem with rfl | mem
      · exact low
      · have := after d mem
        omega
    · exact viewList_back (by omega) (by omega) _ rest
    · rw [ih later, if_pos low]
    · rw [ih later, if_neg low, viewList_cons_of_outside (by omega)]
    · refine viewList_of_lt_start fun d mem => ?_
      rcases mem_cons.mp mem with rfl | mem
      · omega
      · have := after d mem
        omega
    · rfl

/-! ## The loop that changes entries -/

/-- A change of an entry that does not touch its place in the list. -/
structure InPlace (change : Entry O → Entry O) : Prop where
  id : ∀ e, (change e).id = e.id
  start : ∀ e, (change e).start = e.start
  stop : ∀ e, (change e).stop = e.stop
  plain : ∀ e, e.isSubMap = false → (change e).isSubMap = false
  /-- the change does not depend on where the entry stops -/
  front : ∀ e m a, (change (e.front m)).mapping a = (change e).mapping a

variable {change : Entry O → Entry O}

variable (inPlace : InPlace change)

include inPlace

theorem changeLoop_inv (inv : ListInv lo hi c (before ++ rest)) :
    ListInv lo hi (changeLoop change stop c rest).1
      (before ++ (changeLoop change stop c rest).2) := by
  induction rest generalizing c before with
  | nil => exact inv
  | cons e rest ih =>
    have plain := inPlace.plain e inv.neighbours.2.2.2.2
    rw [changeLoop]
    split_ifs with inRange past
    · refine (inv.splitBack inRange past).change (inPlace.id _) (inPlace.start _) (inPlace.stop _) ?_
      exact inPlace.plain _ inv.neighbours.2.2.2.2
    · have changed := inv.change (inPlace.id e) (inPlace.start e) (inPlace.stop e) plain
      rw [append_cons] at changed ⊢
      exact ih changed
    · exact inv

/-- The loop frees no entry. -/
theorem changeLoop_ids : rest.map Entry.id ⊆ (changeLoop change stop c rest).2.map Entry.id := by
  induction rest generalizing c with
  | nil => exact List.Subset.refl _
  | cons e rest ih =>
    rw [changeLoop]
    split_ifs
    · simp only [map_cons, inPlace.id]
      exact cons_subset_cons _ (subset_cons_self _ _)
    · simp only [map_cons, inPlace.id]
      exact cons_subset_cons _ ih
    · exact List.Subset.refl _

/-- The loop changes the entries in front of `stop`. -/
theorem changeLoop_view (segments : Segments Entry.start Entry.stop lo rest hi) :
    viewList (changeLoop change stop c rest).2 a =
      if a < stop then (entryAt rest a).map fun e => (change e).mapping a else viewList rest a := by
  induction rest generalizing c lo with
  | nil => exact (ite_self _).symm
  | cons e rest ih =>
    obtain ⟨-, order, -, later⟩ := segments
    have after : ∀ d ∈ rest, e.stop ≤ d.start := fun d mem => (later.bounds mem).1
    rw [changeLoop]
    by_cases inRange : e.start < stop
    · rw [if_pos inRange]
      by_cases past : stop < e.stop
      · rw [if_pos past]
        by_cases low : a < stop
        · rw [if_pos low]
          by_cases covers : e.start ≤ a
          · rw [entryAt, covering_cons_of_inside covers (by omega)]
            rw [viewList_cons_of_inside ((inPlace.start (e.front stop)).trans_le covers)
              (low.trans_eq (inPlace.stop (e.front stop)).symm), inPlace.front]
            rfl
          · rw [entryAt, covering_of_lt_start fun d mem => ?_]
            · refine viewList_of_lt_start fun d mem => ?_
              rcases mem_cons.mp mem with rfl | mem
              · rw [inPlace.start]
                exact Nat.lt_of_not_le covers
              rcases mem_cons.mp mem with rfl | mem
              · exact low
              · have := after d mem
                omega
            · rcases mem_cons.mp mem with rfl | mem
              · omega
              · have := after d mem
                omega
        · rw [if_neg low, viewList_cons_of_outside]
          · exact viewList_back (by omega) (by omega) _ rest
          · rw [inPlace.stop]
            exact fun mem => low mem.2
      · rw [if_neg past]
        by_cases covers : e.start ≤ a ∧ a < e.stop
        · rw [if_pos (by omega), entryAt, covering_cons_of_inside covers.1 covers.2,
            viewList_cons_of_inside ((inPlace.start e).trans_le covers.1)
              (covers.2.trans_eq (inPlace.stop e).symm)]
          rfl
        · rw [viewList_cons_of_outside (by rw [inPlace.start, inPlace.stop]; exact covers), ih later,
            viewList_cons_of_outside covers, entryAt, entryAt, covering_cons_of_outside covers]
    · rw [if_neg inRange]
      split_ifs with low
      · have none : ∀ d ∈ e :: rest, a < d.start := by
          intro d mem
          rcases mem_cons.mp mem with rfl | mem
          · omega
          · have := after d mem
            omega
        rw [viewList_of_lt_start none, entryAt, covering_of_lt_start none]
        rfl
      · rfl

end Darwin.Vm.Map
