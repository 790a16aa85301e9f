import Darwin.Vm.Map.Lookup

/-!
# Allocation of ranges

`vm_map_insert` maps a range that is free, by a new entry or by an entry in front of the range that
is extended; `vm_map_find_entry` and `vm_map_find` look for the range themselves.
-/

namespace Darwin.Vm.Map

open List Darwin.Lib Option VmMap BitVec

variable {O : Type*} {start stop a : ℕ} {map : VmMap O} {before after : List (Entry O)}
  {d e : Entry O}

/-! ## A new entry, and an entry that is extended -/

/-- Between two parts of the list there is room for a range. -/
structure Room (map : VmMap O) (before after : List (Entry O)) (start stop : ℕ) : Prop where
  list : map.entries = before ++ after
  low : lastStop Entry.stop map.minOffset before ≤ start
  order : start < stop
  high : stop ≤ map.maxOffset
  room : ∀ e ∈ after, stop ≤ e.start

theorem Room.earlier (inv : map.Inv) (room : Room map before after start stop) :
    ∀ e ∈ before, e.stop ≤ start := by
  intro e mem
  have segments := inv.list.segments
  rw [room.list] at segments
  exact ((segments_append.mp segments).1.stop_le_lastStop mem).trans room.low

/-- The room is free. -/
theorem Room.view_none (inv : map.Inv) (room : Room map before after start stop)
    (low : start ≤ a) (high : a < stop) : map.view a = none := by
  rw [view, room.list, viewList_append,
    viewList_of_stop_le fun e mem => (room.earlier inv e mem).trans low,
    viewList_of_lt_start fun e mem => high.trans_le (room.room e mem), none_or]

theorem Room.link_list (inv : map.Inv) (room : Room map before after d.start d.stop)
    (new : d.id = map.counts.nextId) (plain : d.isSubMap = false) :
    ListInv map.minOffset map.maxOffset (map.link before after d).counts
      (map.link before after d).entries := by
  have list := inv.list
  rw [room.list] at list
  exact list.insert new room.low room.order room.high room.room plain

/-- A new entry maps the range. -/
theorem Room.link_view (inv : map.Inv) (room : Room map before after d.start d.stop) (a : ℕ) :
    (map.link before after d).view a =
      if d.start ≤ a ∧ a < d.stop then some (d.mapping a) else map.view a := by
  show viewList (before ++ d :: after) a = _
  rw [viewList_append]
  split_ifs with inRange
  · rw [viewList_of_stop_le fun e mem => (room.earlier inv e mem).trans inRange.1,
      viewList_cons_of_inside inRange.1 inRange.2, none_or]
  · rw [viewList_cons_of_outside inRange, ← viewList_append, ← room.list]
    rfl

theorem link_ids : map.entries = before ++ after →
    map.entries.map Entry.id ⊆ (map.link before after d).entries.map Entry.id := by
  intro eq
  show _ ⊆ (before ++ d :: after).map Entry.id
  rw [eq, map_append, map_append, map_cons]
  exact append_subset.mpr ⟨subset_append_left _ _,
    List.Subset.trans (subset_cons_self _ _) (subset_append_right _ _)⟩

theorem Room.extend_list (inv : map.Inv) (room : Room map (before ++ [e]) after e.stop stop) :
    ListInv map.minOffset map.maxOffset (map.extend (before ++ [e]) after e stop).counts
      (map.extend (before ++ [e]) after e stop).entries := by
  have list := inv.list
  rw [room.list, ← append_cons] at list
  obtain ⟨low, order, -, -, plain⟩ := list.neighbours
  have extended : ListInv _ _ _ (before ++ e.front stop :: after) :=
    list.replace rfl low (order.trans room.order) room.high room.room plain
  show ListInv _ _ _ ((before ++ [e]).dropLast ++ e.front stop :: after)
  rw [dropLast_concat]
  refine extended.of_size ?_
  show map.counts.size + ((stop : ℤ) - e.start) - (e.stop - e.start) =
    map.counts.size + ((stop : ℤ) - e.stop)
  omega

/-- An extended entry maps the range as it maps the addresses in front of it. -/
theorem Room.extend_view (inv : map.Inv) (room : Room map (before ++ [e]) after e.stop stop)
    (a : ℕ) :
    (map.extend (before ++ [e]) after e stop).view a =
      if e.stop ≤ a ∧ a < stop then some (e.mapping a) else map.view a := by
  have list := inv.list
  rw [room.list, ← append_cons] at list
  obtain ⟨low, order, -, later, -⟩ := list.neighbours
  show viewList ((before ++ [e]).dropLast ++ e.front stop :: after) a = _
  have past : stop > e.stop := room.order
  rw [dropLast_concat, viewList_append, view, room.list, ← append_cons, viewList_append]
  split_ifs with inRange
  · rw [viewList_of_stop_le fun d mem => (room.earlier inv d (mem_append_left _ mem)).trans
      inRange.1, viewList_cons_of_inside (e := e.front stop) (order.le.trans inRange.1) inRange.2]
    rfl
  congr 1
  by_cases covers : e.start ≤ a ∧ a < e.stop
  · rw [viewList_cons_of_inside covers.1 covers.2,
      viewList_cons_of_inside (e := e.front stop) covers.1 (covers.2.trans past)]
    rfl
  · rw [viewList_cons_of_outside covers, viewList_cons_of_outside]
    show ¬ (e.start ≤ a ∧ a < stop)
    omega

theorem extend_ids (stop : ℕ) : map.entries = before ++ [e] ++ after →
    (map.extend (before ++ [e]) after e stop).entries.map Entry.id = map.entries.map Entry.id := by
  intro eq
  show ((before ++ [e]).dropLast ++ e.front stop :: after).map Entry.id = _
  rw [eq, dropLast_concat, ← append_cons, map_append, map_append, map_cons, map_cons]
  rfl

/-! ## Insertion at a given range -/

/-- A range that can be mapped. -/
def VmMap.Free (map : VmMap O) (start stop : ℕ) : Prop :=
  map.minOffset ≤ start ∧ stop ≤ map.maxOffset ∧ start < stop ∧
    ∀ a, start ≤ a → a < stop → map.view a = none

/-- What a new entry maps an address to. -/
def newMapping (object : Option O) (offset : BitVec 32) (start a : ℕ) : Mapping O where
  object := object
  offset := offset + BitVec.ofNat 32 (a - start)
  protection := vmProtDefault
  maxProtection := vmProtAll
  inheritance := vmInheritDefault

/-- The range is mapped, and nothing else has changed: to the object from the offset on; or, where
`extends_` allows it, to what the entry in front of the range is mapped to. -/
def Mapped (map map' : VmMap O) (object : Option O) (offset : BitVec 32) (start stop : ℕ)
    (extends_ : Entry O → Prop) : Prop :=
  (∀ a, ¬ (start ≤ a ∧ a < stop) → map'.view a = map.view a) ∧
    ((∀ a, start ≤ a → a < stop → map'.view a = some (newMapping object offset start a)) ∨
      ∃ e ∈ map.entries, e.stop = start ∧ extends_ e ∧
        ∀ a, start ≤ a → a < stop → map'.view a = some (e.mapping a))

section Insert

variable (zalloc : ℕ → Entry O) (coalesce : O → Bool)

/-- The hint plays no part in what a map stands for. -/
theorem VmMap.Inv.withHint (inv : map.Inv) {hint : Option ℕ} (denotes : Denotes map.entries hint) :
    Inv { map with hint := hint } where
  list := inv.list
  hint := denotes
  firstFree := inv.firstFree
  main := inv.main

/-- The entry that `vm_map_insert` may extend: adjacent, anonymous or with an object that can grow,
and with the attributes of new memory. -/
def InsertExtends (object : Option O) (e : Entry O) : Prop :=
  object = none ∧ vmObjectCoalesce coalesce e.object = true ∧ e.protection = vmProtDefault ∧
    e.maxProtection = vmProtAll ∧ e.inheritance = vmInheritDefault

theorem insertExtends_of_filter {object : Option O} {l : List (Entry O)}
    (found : (l.getLast?.filter fun e => e.insertExtends coalesce object start) = some e) :
    l = l.dropLast ++ [e] ∧ e.stop = start ∧ InsertExtends coalesce object e := by
  obtain ⟨last, test⟩ := filter_eq_some_iff.mp found
  simp only [Entry.insertExtends, Bool.and_eq_true, beq_iff_eq, isNone_iff_eq_none] at test
  refine ⟨?_, test.1.1.1.1.1.1.1.2, test.1.1.1.1.1.1.1.1, test.2, test.1.1.1.2, test.1.1.2,
    test.1.1.1.1.2⟩
  rw [List.getLast?_eq_some_iff] at last
  obtain ⟨l', rfl⟩ := last
  rw [dropLast_concat]

theorem insertEntry_mapping (main : map.isMainMap = true) (object : Option O) (offset : BitVec 32)
    (start stop a : ℕ) :
    (map.insertEntry zalloc object offset start stop).mapping a =
      newMapping object offset start a := by
  rw [insertEntry, if_pos main]
  rfl

theorem insertEntry_place (main : map.isMainMap = true) (object : Option O) (offset : BitVec 32)
    (start stop : ℕ) :
    (map.insertEntry zalloc object offset start stop).id = map.counts.nextId ∧
      (map.insertEntry zalloc object offset start stop).start = start ∧
      (map.insertEntry zalloc object offset start stop).stop = stop ∧
      (map.insertEntry zalloc object offset start stop).isSubMap = false := by
  rw [insertEntry, if_pos main]
  exact ⟨rfl, rfl, rfl, rfl⟩

/-- Where there is room, `vm_map_insert` maps the range. -/
theorem Room.insertAfter (inv : map.Inv) (room : Room map before after start stop)
    (object : Option O) (offset : BitVec 32) :
    (map.insertAfter zalloc coalesce (lastId before) object offset start stop).2.Inv ∧
      (map.insertAfter zalloc coalesce (lastId before) object offset start stop).1 = .success ∧
      Mapped map (map.insertAfter zalloc coalesce (lastId before) object offset start stop).2 object
        offset start stop (InsertExtends coalesce object) := by
  have distinct := inv.list.distinct
  have cut : cutAfter map.entries (lastId before) = (before, after) := by
    rw [room.list] at distinct ⊢
    exact cutAfter_append distinct
  have noNext : ¬ (after.head?.any fun next => next.start < stop) = true := by
    cases after with
    | nil => simp
    | cons e after => simpa using room.room e mem_cons_self
  rw [VmMap.insertAfter, cut]
  dsimp only
  rw [if_neg noNext]
  cases found : before.getLast?.filter fun e => e.insertExtends coalesce object start with
  | some e =>
    obtain ⟨eq, rfl, extends_⟩ := insertExtends_of_filter coalesce found
    generalize before.dropLast = front at eq
    subst eq
    have ids := extend_ids stop room.list
    refine ⟨⟨room.extend_list inv, ?_, ?_, inv.main⟩, rfl, ?_⟩
    · exact inv.hint.mono (by rw [ids]; exact List.Subset.refl _)
    · exact inv.firstFree.mono (by rw [ids]; exact List.Subset.refl _)
    refine ⟨fun a outside => ?_, .inr ⟨e, ?_, rfl, extends_, fun a low high => ?_⟩⟩
    · rw [room.extend_view inv, if_neg outside]
    · rw [room.list]
      simp
    · rw [room.extend_view inv, if_pos ⟨low, high⟩]
  | none =>
    obtain ⟨new, startEq, stopEq, plain⟩ := insertEntry_place zalloc inv.main object offset start stop
    have mapping := insertEntry_mapping zalloc inv.main object offset start stop
    generalize map.insertEntry zalloc object offset start stop = d at *
    subst startEq stopEq
    have ids := link_ids (d := d) room.list
    refine ⟨⟨room.link_list inv new plain, inv.hint.mono ids, ?_, inv.main⟩, rfl, ?_⟩
    · show Denotes (before ++ d :: after) _
      split_ifs with newFree
      · intro id same
        cases same
        simp
      · exact inv.firstFree.mono ids
    · refine ⟨fun a outside => ?_, .inl fun a low high => ?_⟩
      · exact (room.link_view inv a).trans (if_neg outside)
      · rw [← mapping]
        exact (room.link_view inv a).trans (if_pos ⟨low, high⟩)

/-- `vm_map_insert` succeeds if and only if the range is free, and then maps it. -/
theorem VmMap.Inv.insert (inv : map.Inv) (object : Option O) (offset : BitVec 32) (start stop : ℕ) :
    (map.vmMapInsert zalloc coalesce object offset start stop).2.Inv ∧ (map.Free start stop →
        (map.vmMapInsert zalloc coalesce object offset start stop).1 = .success ∧
        Mapped map (map.vmMapInsert zalloc coalesce object offset start stop).2 object offset start
          stop (InsertExtends coalesce object)) ∧
      (¬ map.Free start stop →
        (map.vmMapInsert zalloc coalesce object offset start stop).1 ≠ .success ∧
        ∀ a, (map.vmMapInsert zalloc coalesce object offset start stop).2.view a = map.view a) := by
  rw [vmMapInsert]
  by_cases bounds : start < map.minOffset ∨ map.maxOffset < stop ∨ stop ≤ start
  · rw [if_pos bounds]
    refine ⟨inv, fun free => ?_, fun _ => ⟨by rintro ⟨⟩, fun _ => rfl⟩⟩
    obtain ⟨low, high, order, -⟩ := free
    omega
  · rw [if_neg bounds]
    obtain ⟨answers, hint, changed, denotes, missing⟩ := inv.lookup start
    have inv' := inv.withHint denotes
    have view (a : ℕ) : view { map with hint := hint } a = map.view a := rfl
    obtain ⟨before, rest, eq, earlier, ⟨notFound, here, later⟩ | ⟨found, e, rest', rfl, low, high,
      here⟩⟩ := answers
    · have distinct := inv.list.distinct
      simp only [notFound, here, changed, Bool.false_eq_true, if_false]
      by_cases next : ∀ e ∈ rest, stop ≤ e.start
      · have low : map.minOffset ≤ start := by omega
        have high : stop ≤ map.maxOffset := by omega
        have room : Room { map with hint := hint } before rest start stop :=
          ⟨eq, lastStop_le low earlier, by omega, high, next⟩
        have inserted := room.insertAfter zalloc coalesce inv' object offset
        refine ⟨inserted.1, fun _ => inserted.2, fun busy => absurd ⟨low, high, by omega, ?_⟩ busy⟩
        intro a low high
        exact (view a).symm.trans (room.view_none inv' low high)
      · have segments := inv.list.segments
        rw [eq] at segments distinct
        have after := (segments_append.mp segments).2
        -- the next entry overlaps the range
        cases rest with
        | nil => exact absurd (forall_mem_nil _) next
        | cons e rest =>
          have overlaps : e.start < stop := by
            by_contra clear
            refine next fun d mem => ?_
            rcases mem_cons.mp mem with rfl | mem
            · omega
            · have := (after.2.2.2.bounds mem).1
              have := after.2.1
              omega
          have result : insertAfter zalloc coalesce { map with hint := hint } (lastId before)
              object offset start stop = (.noSpace, { map with hint := hint }) := by
            rw [insertAfter]
            simp only [eq, cutAfter_append distinct, List.head?_cons, any_some, overlaps,
              decide_true, if_true]
          rw [result]
          refine ⟨inv', fun free => ?_, fun _ => ⟨by rintro ⟨⟩, view⟩⟩
          have mapped : map.view e.start = some (e.mapping e.start) := by
            rw [VmMap.view, eq, viewList_append, viewList_of_stop_le fun d mem =>
              (earlier d mem).trans (later e mem_cons_self).le,
              viewList_cons_of_inside le_rfl after.2.1, none_or]
          rw [free.2.2.2 e.start (later e mem_cons_self).le overlaps] at mapped
          cases mapped
    · simp only [found, changed, if_true]
      refine ⟨inv', fun free => ?_, fun _ => ⟨by rintro ⟨⟩, fun _ => rfl⟩⟩
      have mapped : map.view start = some (e.mapping start) := by
        rw [VmMap.view, eq, viewList_append, viewList_of_stop_le earlier,
          viewList_cons_of_inside low high, none_or]
      rw [free.2.2.2 start le_rfl (by omega)] at mapped
      cases mapped

end Insert

/-! ## The search for free space -/

/-- Every candidate start that the search meets is followed by `good`. -/
def Candidates (good : ℕ → Prop) (align : ℕ → ℕ) (max size : ℕ) : ℕ → List (Entry O) → Prop
  | start, [] => good start
  | start, next :: rest => good start ∧
      (¬ (max < (align start + size) % 2 ^ 32 ∨ (align start + size) % 2 ^ 32 < align start) →
        next.start < (align start + size) % 2 ^ 32 →
        Candidates good align max size next.stop rest)

variable {align : ℕ → ℕ} {size max length : ℕ} {pre rest : List (Entry O)} {found : Option ℕ × ℕ}

/-- Where the search ends there is room, if no candidate is moved backwards. -/
theorem firstFit_room (positive : 0 < size) (small : size < 2 ^ 32) (inv : map.Inv)
    (list : map.entries = pre ++ rest) (low : lastStop Entry.stop map.minOffset pre ≤ start)
    (next : ∀ e ∈ rest, start ≤ e.start)
    (forward : Candidates (fun candidate => candidate ≤ align candidate) align map.maxOffset size
      start rest)
    (fit : firstFit align map.maxOffset size (lastId pre) start rest = some found) :
    ∃ before after, found.1 = lastId before ∧ start ≤ found.2 ∧
      (found.2 + size) % 2 ^ 32 = found.2 + size ∧
      Room map before after found.2 (found.2 + size) := by
  induction rest generalizing pre start with
  | nil =>
    rw [firstFit] at fit
    split_ifs at fit with fails
    cases fit
    have forward : start ≤ align start := forward
    have whole : (align start + size) % 2 ^ 32 = align start + size := by omega
    refine ⟨pre, [], rfl, forward, whole, list, by omega, by omega, by omega, ?_⟩
    exact fun e mem => nomatch mem
  | cons cur rest ih =>
    obtain ⟨forward, further⟩ := forward
    rw [firstFit] at fit
    split_ifs at fit with fails clear
    · cases fit
      have whole : (align start + size) % 2 ^ 32 = align start + size := by omega
      have segments := inv.list.segments
      rw [list] at segments
      obtain ⟨-, -, order, -, after⟩ := segments_append.mp segments
      refine ⟨pre, cur :: rest, rfl, forward, whole, list, ?_, ?_, ?_, fun e mem => ?_⟩
      · exact low.trans forward
      · show align start < align start + size
        omega
      · show align start + size ≤ map.maxOffset
        omega
      show align start + size ≤ e.start
      rcases mem_cons.mp mem with rfl | mem
      · omega
      · have := (after.bounds mem).1
        omega
    · have segments := inv.list.segments
      rw [list] at segments
      obtain ⟨-, -, order, -, after⟩ := segments_append.mp segments
      have here := next cur mem_cons_self
      obtain ⟨before, after, entry, later, whole, room⟩ := ih
        (by rw [← append_cons]; exact list) (by rw [lastStop_concat])
        (fun e mem => (after.bounds mem).1) (further fails (by omega))
        (by rw [lastId_concat]; exact fit)
      exact ⟨before, after, entry, by omega, whole, room⟩

theorem and_add_and_not (x m : BitVec 32) : (x &&& m) + (x &&& ~~~m) = x := by
  have disjoint : (x &&& m) &&& (x &&& ~~~m) = 0#32 := by
    ext i
    simp
    grind
  rw [add_eq_or_of_and_eq_zero _ _ disjoint, ← and_or_distrib_left,
    or_not_self, and_allOnes]

/-- A candidate is moved forwards, unless the addition of the mask wraps around. -/
theorem le_alignUp {mask : ℕ} (whole : start + mask < 2 ^ 32) : start ≤ alignUp mask start := by
  rw [alignUp]
  have parts := congrArg BitVec.toNat
    (and_add_and_not (BitVec.ofNat 32 start + BitVec.ofNat 32 mask) (BitVec.ofNat 32 mask))
  have mod : (BitVec.ofNat 32 mask).toNat = mask := by
    rw [toNat_ofNat]
    exact Nat.mod_eq_of_lt (by omega)
  have sum : (BitVec.ofNat 32 start + BitVec.ofNat 32 mask).toNat = start + mask := by
    rw [BitVec.toNat_add, mod, BitVec.toNat_ofNat, Nat.mod_eq_of_lt (show start < 2 ^ 32 by omega)]
    exact Nat.mod_eq_of_lt whole
  have low : ((BitVec.ofNat 32 start + BitVec.ofNat 32 mask) &&& BitVec.ofNat 32 mask).toNat ≤
      mask := by
    rw [toNat_and, mod]
    exact Nat.and_le_right
  rw [sum, BitVec.toNat_add] at parts
  have := Nat.mod_le (((BitVec.ofNat 32 start + BitVec.ofNat 32 mask) &&&
    BitVec.ofNat 32 mask).toNat + ((BitVec.ofNat 32 start + BitVec.ofNat 32 mask) &&&
    ~~~ BitVec.ofNat 32 mask).toNat) (2 ^ 32)
  omega

theorem Candidates.imp {good good' : ℕ → Prop} (candidates : Candidates good align max size start rest)
    (weaker : ∀ c, good c → good' c) : Candidates good' align max size start rest := by
  induction rest generalizing start with
  | nil => exact weaker _ candidates
  | cons next rest ih =>
    exact ⟨weaker _ candidates.1, fun fits overlaps => ih (candidates.2 fits overlaps)⟩

theorem candidates_of_forall {good : ℕ → Prop}
    (rest : List (Entry O)) (all : ∀ c, good c) : Candidates good align max size start rest := by
  induction rest generalizing start with
  | nil => exact all _
  | cons next rest ih => exact ⟨all _, fun _ _ => ih⟩

/-- The list cut after the entry that a pointer denotes. -/
theorem Denotes.cutAfter {l : List (Entry O)} {pointer : Option ℕ} (denotes : Denotes l pointer)
    (distinct : (l.map Entry.id).Nodup) :
    ∃ pre rest, l = pre ++ rest ∧ pointer = lastId pre ∧ cutAfter l pointer = (pre, rest) := by
  cases pointer with
  | none => exact ⟨[], l, rfl, rfl, rfl⟩
  | some id =>
    obtain ⟨l₁, e, l₂, rfl, rfl⟩ := denotes.split
    rw [append_cons] at distinct ⊢
    have last := lastId_concat l₁ e
    refine ⟨l₁ ++ [e], l₂, rfl, last.symm, ?_⟩
    rw [← last]
    exact cutAfter_append distinct

/-- Where the search for free space begins, nothing is mapped up to the next entry. -/
theorem VmMap.Inv.freeStart (inv : map.Inv) :
    ∃ pre rest, map.entries = pre ++ rest ∧ map.firstFree = lastId pre ∧
      Map.cutAfter map.entries map.firstFree = (pre, rest) ∧
      lastStop Entry.stop map.minOffset pre = map.freeStart ∧
      ∀ e ∈ rest, map.freeStart ≤ e.start := by
  obtain ⟨pre, rest, eq, last, cut⟩ := inv.firstFree.cutAfter inv.list.distinct
  have start : lastStop Entry.stop map.minOffset pre = map.freeStart := by
    rcases eq_nil_or_concat' pre with rfl | ⟨l, e, rfl⟩
    · rw [VmMap.freeStart, last]
      rfl
    rw [lastId_concat] at last
    rw [VmMap.freeStart, last, lastStop_concat]
    refine (stopOf_eq map inv.list.distinct ?_).symm
    rw [eq]
    simp
  have segments := inv.list.segments
  rw [eq] at segments
  refine ⟨pre, rest, eq, last, cut, start, fun e mem => ?_⟩
  rw [← start]
  exact ((segments_append.mp segments).2.bounds mem).1

section FindEntry

variable [DecidableEq O] (zalloc : ℕ → Entry O)

/-- The search of `vm_map_find_entry` meets no candidate that wraps around when it is aligned. -/
def VmMap.AlignsWhole (map : VmMap O) (size mask : ℕ) : Prop :=
  Candidates (fun candidate => candidate + mask < 2 ^ 32) (alignUp mask) map.maxOffset size
    map.freeStart (cutAfter map.entries map.firstFree).2

/-- The entry that `vm_map_find_entry` may extend: adjacent, with the same object. -/
def FindEntryExtends (object : Option O) (e : Entry O) : Prop :=
  object ≠ none ∧ e.object = object ∧ e.protection = vmProtDefault ∧ e.maxProtection = vmProtAll ∧
    e.inheritance = vmInheritDefault

theorem findEntryExtends_of_filter {object : Option O} {l : List (Entry O)}
    (found : (l.getLast?.filter fun e => e.findEntryExtends object start) = some e) :
    l = l.dropLast ++ [e] ∧ e.stop = start ∧ FindEntryExtends object e := by
  obtain ⟨last, test⟩ := filter_eq_some_iff.mp found
  simp only [Entry.findEntryExtends, Bool.and_eq_true, beq_iff_eq, isSome_iff_ne_none] at test
  obtain ⟨⟨⟨⟨⟨⟨⟨⟨⟨⟨some_, stop⟩, -⟩, -⟩, object⟩, -⟩, inheritance⟩, protection⟩, max⟩, -⟩, -⟩ := test
  refine ⟨?_, stop, some_, object, protection, max, inheritance⟩
  rw [List.getLast?_eq_some_iff] at last
  obtain ⟨l', rfl⟩ := last
  rw [dropLast_concat]

/-- `vm_map_find_entry` maps a free range that it has found, or finds none and changes nothing. -/
theorem VmMap.Inv.findEntry (inv : map.Inv) {size mask : ℕ} (positive : 0 < size)
    (small : size < 2 ^ 32) (whole : map.AlignsWhole size mask) (object : Option O) :
    (map.vmMapFindEntry zalloc size mask object).2.2.Inv ∧
      (map.vmMapFindEntry zalloc size mask object = (.noSpace, 0, map) ∨
        ∃ start, (map.vmMapFindEntry zalloc size mask object).1 = .success ∧
          (map.vmMapFindEntry zalloc size mask object).2.1 = start ∧
          map.Free start (start + size) ∧
          Mapped map (map.vmMapFindEntry zalloc size mask object).2.2 none 0 start (start + size)
            (FindEntryExtends object)) := by
  obtain ⟨pre, rest, eq, last, cut, low, next⟩ := inv.freeStart
  rw [AlignsWhole, cut] at whole
  rw [vmMapFindEntry, cut, last]
  cases fit : firstFit (alignUp mask) map.maxOffset size (lastId pre) map.freeStart rest with
  | none => exact ⟨inv, .inl rfl⟩
  | some found =>
    obtain ⟨before, after, entry, -, wholeStop, room⟩ := firstFit_room positive small inv eq low.le next
      (whole.imp fun c whole => le_alignUp whole) fit
    obtain ⟨entry', start⟩ := found
    dsimp only at entry wholeStop room ⊢
    subst entry
    rw [wholeStop]
    have distinct := inv.list.distinct
    have cut' : cutAfter map.entries (lastId before) = (before, after) := by
      rw [room.list] at distinct ⊢
      exact cutAfter_append distinct
    rw [cut']
    have free : map.Free start (start + size) := by
      refine ⟨?_, room.high, room.order, fun a low high => room.view_none inv low high⟩
      have segments := inv.list.segments
      rw [room.list] at segments
      exact (segments_append.mp segments).1.le_lastStop.trans room.low
    cases found : before.getLast?.filter fun e => e.findEntryExtends object start with
    | some e =>
      obtain ⟨eqLast, rfl, extends_⟩ := findEntryExtends_of_filter found
      generalize before.dropLast = front at eqLast
      subst eqLast
      have ids := extend_ids (e.stop + size) room.list
      have denotes : Denotes (map.extend (front ++ [e]) after e (e.stop + size)).entries
          (some e.id) := by
        intro id same
        rw [ids, room.list]
        cases same
        simp
      refine ⟨⟨room.extend_list inv, denotes, denotes, inv.main⟩, .inr ⟨e.stop, rfl, rfl, free, ?_⟩⟩
      refine ⟨fun a outside => ?_, .inr ⟨e, ?_, rfl, extends_, fun a low high => ?_⟩⟩
      · exact (room.extend_view inv a).trans (if_neg outside)
      · rw [room.list]
        simp
      · exact (room.extend_view inv a).trans (if_pos ⟨low, high⟩)
    | none =>
      have denotes : Denotes (map.link before after (map.findEntryNew zalloc start
          (start + size))).entries (some (map.findEntryNew zalloc start (start + size)).id) := by
        intro id same
        cases same
        simp [link]
      have linked : Room map before after (map.findEntryNew zalloc start (start + size)).start
        (map.findEntryNew zalloc start (start + size)).stop := room
      refine ⟨⟨linked.link_list inv rfl rfl, denotes, denotes, inv.main⟩,
        .inr ⟨start, rfl, rfl, free, ?_⟩⟩
      refine ⟨fun a outside => ?_, .inl fun a low high => ?_⟩
      · exact (linked.link_view inv a).trans (if_neg outside)
      · exact (linked.link_view inv a).trans (if_pos ⟨low, high⟩)

end FindEntry

/-! ## The search of `vm_map_find` -/

/-- The search returns an entry of the list, or the header. -/
theorem firstFit_entry (fit : firstFit align max size (lastId pre) start rest = some found) :
    Denotes (pre ++ rest) found.1 := by
  induction rest generalizing pre start with
  | nil =>
    rw [firstFit] at fit
    split_ifs at fit
    cases fit
    exact denotes_lastId pre []
  | cons next rest ih =>
    rw [firstFit] at fit
    split_ifs at fit
    · cases fit
      exact denotes_lastId pre (next :: rest)
    · rw [← lastId_concat pre next] at fit
      rw [append_cons]
      exact ih fit

/-- What the search for space does: it sets the hint, and does not go below the address. -/
structure SpaceFound (map : VmMap O) (address length : ℕ) (result : Option ℕ × VmMap O) : Prop where
  hint : ∃ hint, result.2 = { map with hint := hint } ∧ Denotes map.entries hint
  room : ∀ start, result.1 = some start → 0 < length → address ≤ start ∧ map.minOffset ≤ start ∧
    ∃ before after, Room map before after start (start + length)

theorem VmMap.Inv.lookup_cut (inv : map.Inv) (address : ℕ) :
    ∃ pre rest, map.entries = pre ++ rest ∧ (map.vmMapLookupEntry address).2.1 = lastId pre ∧
      cutAfter map.entries (map.vmMapLookupEntry address).2.1 = (pre, rest) ∧
      (map.minOffset ≤ address → lastStop Entry.stop map.minOffset pre ≤
        if (map.vmMapLookupEntry address).1 then map.stopOf (map.vmMapLookupEntry address).2.1
        else address) ∧
      (address ≤ if (map.vmMapLookupEntry address).1 then
        map.stopOf (map.vmMapLookupEntry address).2.1 else address) ∧
      ∀ e ∈ rest, (if (map.vmMapLookupEntry address).1 then
        map.stopOf (map.vmMapLookupEntry address).2.1 else address) ≤ e.start := by
  obtain ⟨answers, -⟩ := inv.lookup address
  have distinct := inv.list.distinct
  obtain ⟨before, rest, eq, earlier, ⟨notFound, here, later⟩ | ⟨found, e, rest', rfl, low, high,
    here⟩⟩ := answers
  · rw [notFound, here]
    refine ⟨before, rest, eq, rfl, ?_, fun mem => ?_, le_rfl, fun e mem => ?_⟩
    · rw [eq] at distinct ⊢
      exact cutAfter_append distinct
    · exact lastStop_le mem earlier
    · exact (later e mem).le
  · have stop : map.stopOf (some e.id) = e.stop := stopOf_eq map distinct (by rw [eq]; simp)
    rw [found, here, stop]
    have list := inv.list
    rw [eq] at list
    refine ⟨before ++ [e], rest', by rw [eq, append_cons], (lastId_concat before e).symm, ?_,
      fun _ => ?_, ?_, ?_⟩
    · rw [eq, append_cons] at distinct ⊢
      rw [← lastId_concat before e]
      exact cutAfter_append distinct
    · rw [lastStop_concat]
      exact le_rfl
    · exact high.le
    · exact list.neighbours.2.2.2.1

/-- The loop of `vm_map_find`, from an entry with free space behind it. -/
theorem VmMap.Inv.searched (inv : map.Inv) {address first : ℕ}
    (small : length < 2 ^ 32) (eq : map.entries = pre ++ rest)
    (low : lastStop Entry.stop map.minOffset pre ≤ first) (next : ∀ e ∈ rest, first ≤ e.start)
    (above : address ≤ first ∧ map.minOffset ≤ first) {hint : Option ℕ}
    (denotes : Denotes map.entries hint) :
    SpaceFound map address length
      (match firstFit id map.maxOffset length (lastId pre) first rest with
        | none => (none, { map with hint := hint })
        | some (entry, start) => (some start, { map with hint := entry })) := by
  cases fit : firstFit id map.maxOffset length (lastId pre) first rest with
  | none => exact ⟨⟨hint, rfl, denotes⟩, fun _ none => nomatch none⟩
  | some found =>
    obtain ⟨entry, start⟩ := found
    refine ⟨⟨entry, rfl, by rw [eq]; exact firstFit_entry fit⟩, fun start' same positive => ?_⟩
    cases same
    obtain ⟨before, after, -, later, -, room⟩ := firstFit_room positive small inv eq low next
      (candidates_of_forall rest fun _ => le_rfl) fit
    exact ⟨above.1.trans later, above.2.trans later, before, after, room⟩

theorem VmMap.Inv.findSpace (inv : map.Inv) (address : ℕ) (small : length < 2 ^ 32) :
    SpaceFound map address length (map.findSpace address length) := by
  rw [VmMap.findSpace]
  generalize clip : (if address < map.minOffset then map.minOffset else address) = first
  have above : address ≤ first ∧ map.minOffset ≤ first := by
    split_ifs at clip <;> omega
  by_cases beyond : map.maxOffset < first
  · rw [if_pos beyond]
    exact ⟨⟨map.hint, rfl, inv.hint⟩, fun _ none => nomatch none⟩
  rw [if_neg beyond]
  by_cases atMin : first = map.minOffset
  · rw [if_pos atMin]
    obtain ⟨pre, rest, eq, last, cut, low, next⟩ := inv.freeStart
    have segments := inv.list.segments
    rw [eq] at segments
    have least := (segments_append.mp segments).1.le_lastStop
    have found : SpaceFound map address length _ :=
      inv.searched small eq low.le next ⟨by omega, by omega⟩ inv.hint
    rw [cut]
    rw [← last] at found
    exact found
  · rw [if_neg atMin]
    obtain ⟨-, hint, changed, denotes, -⟩ := inv.lookup first
    obtain ⟨pre, rest, eq, last, cut, low, further, next⟩ := inv.lookup_cut first
    have found : SpaceFound map address length _ :=
      inv.searched small eq (low above.2) next ⟨above.1.trans further, above.2.trans further⟩ denotes
    simp only [changed, cut]
    rw [← last] at found
    exact found

/-! ## `vm_map_find` -/

section Find

variable (zalloc : ℕ → Entry O) (coalesce : O → Bool)

/-- `vm_map_find` maps a free range: the one it is given, or one that it has found at the address or
above; or it fails and maps nothing. -/
theorem VmMap.Inv.find (inv : map.Inv) (object : Option O) (offset : BitVec 32) (address : ℕ)
    {length : ℕ} (small : length < 2 ^ 32) (findSpace : Bool) :
    (map.vmMapFind zalloc coalesce object offset address length findSpace).2.2.Inv ∧
      (((map.vmMapFind zalloc coalesce object offset address length findSpace).1 ≠ .success ∧
          (∀ a, (map.vmMapFind zalloc coalesce object offset address length findSpace).2.2.view a =
            map.view a) ∧
          (findSpace = false → ¬ map.Free address ((address + length) % 2 ^ 32))) ∨
        ∃ start, (map.vmMapFind zalloc coalesce object offset address length findSpace).1 =
            .success ∧
          (map.vmMapFind zalloc coalesce object offset address length findSpace).2.1 = start ∧
          (if findSpace then address ≤ start else address = start) ∧
          map.Free start (start + length) ∧
          Mapped map (map.vmMapFind zalloc coalesce object offset address length findSpace).2.2
            object offset start (start + length) (InsertExtends coalesce object)) := by
  -- an insertion that succeeds did not wrap around
  have whole : ∀ {start : ℕ}, start < (start + length) % 2 ^ 32 →
      (start + length) % 2 ^ 32 = start + length := by
    intro start order
    omega
  cases findSpace with
  | false =>
    have inserted := inv.insert zalloc coalesce object offset address ((address + length) % 2 ^ 32)
    rw [vmMapFind, if_neg Bool.false_ne_true]
    refine ⟨inserted.1, ?_⟩
    by_cases free : map.Free address ((address + length) % 2 ^ 32)
    · have eq := whole free.2.2.1
      obtain ⟨success, mapped⟩ := inserted.2.1 free
      rw [eq] at free mapped success ⊢
      exact .inr ⟨address, success, rfl, rfl, free, mapped⟩
    · obtain ⟨failure, same⟩ := inserted.2.2 free
      exact .inl ⟨failure, same, fun _ => free⟩
  | true =>
    obtain ⟨⟨hint, changed, denotes⟩, room⟩ := inv.findSpace address small
    rw [vmMapFind, if_pos rfl]
    generalize map.findSpace address length = result at *
    obtain ⟨found, map'⟩ := result
    subst changed
    have inv' := inv.withHint denotes
    cases found with
    | none => exact ⟨inv', .inl ⟨nofun, fun _ => rfl, nofun⟩⟩
    | some start =>
      have inserted := inv'.insert zalloc coalesce object offset start ((start + length) % 2 ^ 32)
      refine ⟨inserted.1, ?_⟩
      by_cases free : map.Free start ((start + length) % 2 ^ 32)
      · have eq := whole free.2.2.1
        obtain ⟨success, mapped⟩ := inserted.2.1 free
        rw [eq] at free
        dsimp only
        rw [eq] at mapped success ⊢
        have positive : 0 < length := by
          have := free.2.2.1
          omega
        exact .inr ⟨start, success, rfl, (room start rfl positive).1, free, mapped⟩
      · obtain ⟨failure, same⟩ := inserted.2.2 free
        exact .inl ⟨failure, same, nofun⟩

end Find

end Darwin.Vm.Map
