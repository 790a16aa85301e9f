import Darwin.Vm.Map.Run
import Mathlib.Data.Set.Basic
import Mathlib.Order.Nat

/-!
# First fit

The search of `vm_map_find` for free space starts at the entry that `first_free` denotes when it is
asked for the lowest address, and at the entry in front of the address otherwise.  It finds the
lowest range that is large enough if and only if nothing is free below the end of `first_free`.

`vm_map_delete` keeps that so.  The other operations do not always: behind the header of the map
`vm_map_insert` takes the end of the header, which is the top of the map, for the end of what is
mapped, and `vm_map_find_entry` makes the entry that it maps the new `first_free`, also if it has
passed over free space that was too small or not aligned.

## Main results

* `VmMap.firstFit_iff` - the search is first-fit if and only if the hint is exact
* `vmMapFind_firstFit` - in which runs it is
-/

namespace Darwin.Vm.Map

open List Darwin.Lib Option VmMap

variable {O : Type*} {start stop a : ℕ} {map : VmMap O} {before after rest : List (Entry O)}
  {d e : Entry O}

/-! ## What the search is for -/

/-- No free byte lies below the end of the entry that `first_free` denotes. -/
def VmMap.HintExact (map : VmMap O) : Prop :=
  ∀ e ∈ map.entries, map.firstFree = some e.id →
    ∀ a, map.minOffset ≤ a → a < e.stop → map.view a ≠ none

/-- The addresses from `address` on where `length` bytes are free. -/
def VmMap.fits (map : VmMap O) (address length : ℕ) : Set ℕ :=
  {a | max address map.minOffset ≤ a ∧ map.Free a (a + length)}

/-- `vm_map_find` returns the lowest address that fits, and fails if and only if there is none. -/
def VmMap.FirstFit (map : VmMap O) : Prop :=
  ∀ (zalloc : ℕ → Entry O) (coalesce : O → Bool) (object : Option O)
    (offset address length : BitVec 32), 0 < length.toNat →
    let result := map.vmMapFind zalloc coalesce object offset address.toNat length.toNat true
    (∀ a, IsLeast (map.fits address.toNat length.toNat) a → result.1 = .success ∧ result.2.1 = a) ∧
    (result.1 = .noSpace ↔ map.fits address.toNat length.toNat = ∅)

/-! ## Mapped addresses -/

theorem view_ne_none (mem : e ∈ map.entries) (low : e.start ≤ a) (high : a < e.stop) :
    map.view a ≠ none := by
  rw [view, viewList, ne_eq, map_eq_none_iff, entryAt, covering, List.find?_eq_none]
  intro unmapped
  exact unmapped e mem (by simp [low, high])

theorem exists_of_view (mapped : map.view a ≠ none) :
    ∃ e ∈ map.entries, e.start ≤ a ∧ a < e.stop := by
  obtain ⟨mapping, view⟩ := ne_none_iff_exists'.mp mapped
  rw [VmMap.view, viewList, map_eq_some_iff] at view
  obtain ⟨e, found, -⟩ := view
  obtain ⟨mem, low, high⟩ := covering_some found
  exact ⟨e, mem, low, high⟩

/-- A free range lies on one side of every entry. -/
theorem VmMap.Free.beside (free : map.Free start stop) (mem : e ∈ map.entries)
    (order : e.start < e.stop) : stop ≤ e.start ∨ e.stop ≤ start := by
  by_contra overlap
  obtain ⟨-, -, nonempty, unmapped⟩ := free
  refine view_ne_none (a := max start e.start) mem (le_max_right _ _) ?_
    (unmapped _ (le_max_left _ _) ?_)
  · exact max_lt (by omega) order
  · exact max_lt nonempty (by omega)

variable (inv : map.Inv)

include inv

theorem Room.free (room : Room map before after start stop) :
    map.Free start stop := by
  have segments := inv.list.segments
  rw [room.list] at segments
  exact ⟨(segments_append.mp segments).1.le_lastStop.trans room.low, room.high, room.order,
    fun a low high => room.view_none inv low high⟩

theorem VmMap.Inv.order (mem : e ∈ map.entries) : e.start < e.stop :=
  (inv.list.segments.bounds mem).2.1

/-- The hint is exact if everything below the start of the search is mapped. -/
theorem VmMap.Inv.hintExact_iff :
    map.HintExact ↔ ∀ a, map.minOffset ≤ a → a < map.freeStart → map.view a ≠ none := by
  have distinct := inv.list.distinct
  cases hint : map.firstFree with
  | none =>
    refine ⟨fun _ a low high => ?_, fun _ e _ same => ?_⟩
    · rw [VmMap.freeStart, hint] at high
      exact absurd low (not_le.mpr high)
    · rw [hint] at same
      cases same
  | some id =>
    obtain ⟨e, mem, rfl⟩ := mem_map.mp (inv.firstFree id hint)
    have begins : map.freeStart = e.stop := by
      rw [VmMap.freeStart, hint]
      exact stopOf_eq map distinct mem
    rw [begins]
    refine ⟨fun exact_ => exact_ e mem hint, fun below d other same => ?_⟩
    have stops := stopOf_eq map distinct other
    rw [hint] at same
    rw [← some.inj same, stopOf_eq map distinct mem] at stops
    rw [← stops]
    exact below

/-! ## The search -/

variable {size length : ℕ} {pointer : Option ℕ} {found : Option ℕ × ℕ}

/-- The search does not pass over a range that is large enough. -/
theorem VmMap.Inv.firstFit_le (whole : map.maxOffset < 2 ^ 32)
    (rest : List (Entry O)) (entries : ∀ e ∈ rest, e ∈ map.entries)
    (free : map.Free a (a + size)) (low : start ≤ a)
    (pointer : Option ℕ) :
    ∃ found, firstFit id map.maxOffset size pointer start rest = some found ∧ found.2 ≤ a := by
  obtain ⟨-, high, nonempty, -⟩ := id free
  induction rest generalizing start pointer with
  | nil =>
    rw [firstFit, if_neg (by simp only [id]; omega)]
    exact ⟨_, rfl, low⟩
  | cons next rest ih =>
    rw [firstFit, if_neg (by simp only [id]; omega)]
    split_ifs with clear
    · exact ⟨_, rfl, low⟩
    refine ih (fun e mem => entries e (mem_cons_of_mem _ mem)) ?_ (some next.id)
    have mem := entries next mem_cons_self
    -- the range lies behind the entry, as it would fit in front of it otherwise
    rcases free.beside mem (inv.order mem) with before | behind
    · simp only [id] at clear
      omega
    · exact behind

theorem VmMap.Inv.findSpace_le (exact_ : map.HintExact)
    (whole : map.maxOffset < 2 ^ 32) {address : ℕ} (fit : a ∈ map.fits address length) :
    ∃ found, (map.findSpace address length).1 = some found ∧ found ≤ a := by
  obtain ⟨above, free⟩ := fit
  rw [VmMap.findSpace]
  generalize clip : (if address < map.minOffset then map.minOffset else address) = first
  have low : first ≤ a := by
    split_ifs at clip <;> omega
  have top := free.2.1
  have nonempty := free.2.2.1
  rw [if_neg (show ¬ map.maxOffset < first by omega)]
  have unmapped := free.2.2.2 a le_rfl nonempty
  by_cases atMin : first = map.minOffset
  · rw [if_pos atMin]
    obtain ⟨pre, rest, eq, -, cut, -, -⟩ := inv.freeStart
    have begins : map.freeStart ≤ a := by
      by_contra above
      exact inv.hintExact_iff.mp exact_ a (by omega) (by omega) unmapped
    obtain ⟨found, fits, le⟩ := inv.firstFit_le whole rest
      (fun e mem => by rw [eq]; exact mem_append_right _ mem) free begins map.firstFree
    rw [cut, fits]
    exact ⟨found.2, rfl, le⟩
  · rw [if_neg atMin]
    obtain ⟨answers, hint, changed, -, -⟩ := inv.lookup first
    obtain ⟨pre, rest, eq, -, cut, -, -, -⟩ := inv.lookup_cut first
    simp only [changed, cut]
    have begins : (if (map.vmMapLookupEntry first).1 then
        stopOf { map with hint := hint } (map.vmMapLookupEntry first).2.1
        else first) ≤ a := by
      split_ifs with found
      · obtain ⟨l, l', list, -,
          ⟨notFound, -⟩ | ⟨-, e, l'', rfl, reached, contains, here⟩⟩ := answers
        · rw [notFound] at found
          cases found
        have mem : e ∈ map.entries := by
          rw [list]
          simp
        rw [here, stopOf_eq { map with hint := hint } inv.list.distinct mem]
        rcases free.beside mem (inv.order mem) with before | behind
        · omega
        · exact behind
      · exact low
    obtain ⟨found, fits, le⟩ := inv.firstFit_le whole rest
      (fun e mem => by rw [eq]; exact mem_append_right _ mem) free begins
      (map.vmMapLookupEntry first).2.1
    rw [fits]
    exact ⟨found.2, rfl, le⟩

/-- The search of `vm_map_find`, and the insertion that follows it. -/
theorem VmMap.Inv.find_true (zalloc : ℕ → Entry O) (coalesce : O → Bool)
    (object : Option O) (offset : BitVec 32) (address : ℕ) (positive : 0 < length)
    (small : length < 2 ^ 32) (whole : map.maxOffset < 2 ^ 32) :
    ((map.findSpace address length).1 = none ∧
      (map.vmMapFind zalloc coalesce object offset address length true).1 = .noSpace) ∨
    ∃ start ∈ map.fits address length, (map.findSpace address length).1 = some start ∧
      (map.vmMapFind zalloc coalesce object offset address length true).1 = .success ∧
      (map.vmMapFind zalloc coalesce object offset address length true).2.1 = start := by
  obtain ⟨⟨hint, changed, denotes⟩, room⟩ := inv.findSpace address small
  rw [vmMapFind, if_pos rfl]
  generalize map.findSpace address length = result at *
  obtain ⟨found, map'⟩ := result
  subst changed
  cases found with
  | none => exact .inl ⟨rfl, rfl⟩
  | some start =>
    obtain ⟨above, bottom, before, after, room⟩ := room start rfl positive
    have free := room.free inv
    have ends : (start + length) % 2 ^ 32 = start + length :=
      Nat.mod_eq_of_lt (free.2.1.trans_lt whole)
    refine .inr ⟨start, ⟨max_le above bottom, free⟩, rfl, ?_, rfl⟩
    dsimp only
    rw [ends]
    exact (((inv.withHint denotes).insert zalloc coalesce object offset start
      (start + length)).2.1 free).1

/-- With an exact hint `vm_map_find` is first-fit. -/
theorem VmMap.Inv.firstFit_of_exact (whole : map.maxOffset < 2 ^ 32)
    (exact_ : map.HintExact) : map.FirstFit := by
  intro zalloc coalesce object offset address length positive result
  rcases inv.find_true zalloc coalesce object offset address.toNat positive length.isLt whole with
    ⟨missing, noSpace⟩ | ⟨start, fit, found, success, here⟩
  · have nothing : map.fits address.toNat length.toNat = ∅ := by
      refine Set.eq_empty_of_forall_notMem fun a fit => ?_
      obtain ⟨found, here, -⟩ := inv.findSpace_le exact_ whole fit
      rw [missing] at here
      cases here
    refine ⟨fun a least => ?_, fun _ => nothing, fun _ => noSpace⟩
    have fit := least.1
    rw [nothing] at fit
    cases fit
  · refine ⟨fun a least => ⟨success, ?_⟩, fun noSpace => ?_, fun nothing => ?_⟩
    · obtain ⟨found', here', le⟩ := inv.findSpace_le exact_ whole least.1
      rw [found] at here'
      cases here'
      exact here.trans (le_antisymm le (least.2 fit))
    · rw [success] at noSpace
      cases noSpace
    · rw [nothing] at fit
      cases fit

/-- The search for the lowest address does not go below the end of `first_free`. -/
theorem VmMap.Inv.freeStart_le (positive : 0 < length)
    (small : length < 2 ^ 32) (found : (map.findSpace map.minOffset length).1 = some start) :
    map.freeStart ≤ start := by
  obtain ⟨pre, rest, eq, last, cut, low, next⟩ := inv.freeStart
  simp only [VmMap.findSpace, if_neg (lt_irrefl map.minOffset), if_true, cut] at found
  split_ifs at found with beyond
  cases fit : firstFit id map.maxOffset length (lastId pre) map.freeStart rest with
  | none =>
    rw [last, fit] at found
    cases found
  | some result =>
    obtain ⟨-, -, -, le, -, -⟩ := firstFit_room positive small inv eq low.le next
      (candidates_of_forall rest fun _ => le_rfl) fit
    rw [last, fit] at found
    cases found
    exact le

/-- `vm_map_find` is first-fit if and only if no free byte lies below the end of `first_free`. -/
theorem VmMap.Inv.firstFit_iff (bottom : map.minOffset < 2 ^ 32)
    (whole : map.maxOffset < 2 ^ 32) : map.FirstFit ↔ map.HintExact := by
  refine ⟨fun firstFit e mem hint b low below unmapped => ?_, inv.firstFit_of_exact whole⟩
  have begins : map.freeStart = e.stop := by
    rw [VmMap.freeStart, hint]
    exact stopOf_eq map inv.list.distinct mem
  have high := (inv.list.segments.bounds mem).2.2
  have min : (BitVec.ofNat 32 map.minOffset).toNat = map.minOffset := by
    rw [BitVec.toNat_ofNat, Nat.mod_eq_of_lt bottom]
  have one : (1 : BitVec 32).toNat = 1 := rfl
  -- the free byte fits, but the search starts behind it
  have fit : b ∈ map.fits map.minOffset 1 := by
    refine ⟨max_le low low, low, by omega, by omega, fun a least most => ?_⟩
    obtain rfl : a = b := by omega
    exact unmapped
  classical
  have least := Set.Nonempty.isLeast_natFind ⟨b, fit⟩
  obtain ⟨lowest, -⟩ := firstFit (fun _ => e) (fun _ => false) none 0
    (BitVec.ofNat 32 map.minOffset) 1 (by rw [one]; exact Nat.one_pos)
  rw [min, one] at lowest
  obtain ⟨success, here⟩ := lowest _ least
  rcases inv.find_true (fun _ => e) (fun _ => false) none 0 map.minOffset Nat.one_pos
    (by omega) whole with ⟨-, noSpace⟩ | ⟨start, -, found, -, here'⟩
  · rw [success] at noSpace
    cases noSpace
  have le := inv.freeStart_le Nat.one_pos (by omega) found
  have := least.2 fit
  rw [here] at here'
  omega

omit inv

/-! ## The hint under the operations -/

theorem hintExact_withHint (hint : Option ℕ) :
    HintExact { map with hint := hint } ↔ map.HintExact := Iff.rfl

variable (inv : map.Inv) (room : Room map before after d.start d.stop)
  (new : d.id = map.counts.nextId)

include inv room new

/-- A new entry leaves the hint exact, if it does not become `first_free`. -/
theorem Room.link_kept (exact_ : map.HintExact) : (map.link before after d).HintExact := by
  intro e mem hint a low high
  rw [room.link_view inv]
  split_ifs with covers
  · nofun
  have old : e ∈ map.entries := by
    rw [room.list]
    have mem : e ∈ before ++ d :: after := mem
    rw [mem_append, mem_cons] at mem
    rcases mem with mem | rfl | mem
    · exact mem_append_left _ mem
    · -- the pointer denotes an entry that was there before
      obtain ⟨e', inside', same⟩ := mem_map.mp (inv.firstFree _ hint)
      have := inv.list.old e' inside'
      omega
    · exact mem_append_right _ mem
  exact exact_ e old hint a low high

/-- A new entry that becomes `first_free` is an exact hint, if everything below it is mapped. -/
theorem Room.link_moved :
    HintExact { map.link before after d with firstFree := some d.id } ↔
      ∀ a, map.minOffset ≤ a → a < d.start → map.view a ≠ none := by
  have view (a : ℕ) : view { map.link before after d with firstFree := some d.id } a =
      if d.start ≤ a ∧ a < d.stop then some (d.mapping a) else map.view a := room.link_view inv a
  constructor
  · intro exact_ a low high
    have mapped := exact_ d (mem_append_cons_self) rfl a low (high.trans room.order)
    rw [view, if_neg (by omega)] at mapped
    exact mapped
  · intro below e mem same a low high
    have here : e = d := by
      have mem : e ∈ before ++ d :: after := mem
      have same : d.id = e.id := some.inj same
      rw [mem_append, mem_cons] at mem
      rcases mem with mem | rfl | mem
      · have := inv.list.old e (by rw [room.list]; exact mem_append_left _ mem)
        omega
      · rfl
      · have := inv.list.old e (by rw [room.list]; exact mem_append_right _ mem)
        omega
    subst here
    rw [view]
    split_ifs with covers
    · nofun
    · exact below a low (by omega)

omit inv room new

/-- An entry that is extended, and the entries that are not. -/
theorem mem_extend (mem : d ∈ (map.extend (before ++ [e]) after e stop).entries)
    (list : map.entries = before ++ [e] ++ after) : d = e.front stop ∨ d ∈ map.entries := by
  have mem : d ∈ (before ++ [e]).dropLast ++ e.front stop :: after := mem
  rw [dropLast_concat, mem_append, mem_cons] at mem
  rw [list, mem_append, mem_append]
  rcases mem with mem | rfl | mem
  · exact .inr (.inl (.inl mem))
  · exact .inl rfl
  · exact .inr (.inr mem)

theorem Room.extend_kept (inv : map.Inv) (room : Room map (before ++ [e]) after e.stop stop)
    (exact_ : map.HintExact) : (map.extend (before ++ [e]) after e stop).HintExact := by
  intro d mem hint a low high
  rw [room.extend_view inv]
  split_ifs with covers
  · nofun
  rcases mem_extend mem room.list with rfl | old
  · have high : a < stop := high
    exact exact_ e (by rw [room.list]; simp) hint a low (by omega)
  · exact exact_ d old hint a low high

theorem Room.extend_moved (inv : map.Inv) (room : Room map (before ++ [e]) after e.stop stop) :
    HintExact { map.extend (before ++ [e]) after e stop with firstFree := some e.id } ↔
      ∀ a, map.minOffset ≤ a → a < e.stop → map.view a ≠ none := by
  have view (a : ℕ) :
      view { map.extend (before ++ [e]) after e stop with firstFree := some e.id } a =
        if e.stop ≤ a ∧ a < stop then some (e.mapping a) else map.view a := room.extend_view inv a
  have member : e ∈ map.entries := by
    rw [room.list]
    simp
  constructor
  · intro exact_ a low high
    have extended : e.front stop ∈ (map.extend (before ++ [e]) after e stop).entries := by
      show _ ∈ (before ++ [e]).dropLast ++ e.front stop :: after
      simp
    have mapped := exact_ (e.front stop) extended rfl a low (high.trans room.order)
    rw [view, if_neg (by omega)] at mapped
    exact mapped
  · intro below d mem same a low high
    rw [view]
    split_ifs with covers
    · nofun
    rcases mem_extend mem room.list with rfl | old
    · have high : a < stop := high
      exact below a low (by omega)
    -- only the extended entry has its identity
    have here : map.stopOf (some d.id) = e.stop := by
      rw [← same]
      exact stopOf_eq map inv.list.distinct member
    rw [stopOf_eq map inv.list.distinct old] at here
    exact below a low (by omega)

section Insert

variable (zalloc : ℕ → Entry O) (coalesce : O → Bool)

/-- What `vm_map_insert` can do: fail, extend the entry in front of the range, or link a new one. -/
theorem VmMap.Inv.insert_cases (inv : map.Inv) (object : Option O) (offset : BitVec 32)
    (start stop : ℕ) :
    ∃ hint, Denotes map.entries hint ∧ ((¬ map.Free start stop ∧
          (map.vmMapInsert zalloc coalesce object offset start stop).2 =
            { map with hint := hint }) ∨
        ∃ before after, Room { map with hint := hint } before after start stop ∧
          ((∃ front e, before = front ++ [e] ∧ e.stop = start ∧
              (map.vmMapInsert zalloc coalesce object offset start stop).2 =
                extend { map with hint := hint } before after e stop) ∨
            ∃ new, new.id = map.counts.nextId ∧ new.start = start ∧ new.stop = stop ∧
              (map.vmMapInsert zalloc coalesce object offset start stop).2 =
                { link { map with hint := hint } before after new with
                  firstFree :=
                    if map.firstFree = lastId before ∧ start ≤ map.stopOf (lastId before) then
                      some new.id
                    else map.firstFree })) := by
  have succeeds := (inv.insert zalloc coalesce object offset start stop).2.1
  rw [vmMapInsert] at succeeds ⊢
  by_cases bounds : start < map.minOffset ∨ map.maxOffset < stop ∨ stop ≤ start
  · rw [if_pos bounds] at succeeds ⊢
    exact ⟨map.hint, inv.hint, .inl ⟨fun free => (by cases (succeeds free).1), rfl⟩⟩
  rw [if_neg bounds] at succeeds ⊢
  obtain ⟨answers, hint, changed, denotes, -⟩ := inv.lookup start
  obtain ⟨before, rest, eq, earlier, ⟨notFound, here, later⟩ | ⟨found, -⟩⟩ := answers
  · simp only [notFound, here, changed, Bool.false_eq_true, if_false] at succeeds ⊢
    have cut : cutAfter map.entries (lastId before) = (before, rest) := by
      have distinct := inv.list.distinct
      rw [eq] at distinct ⊢
      exact cutAfter_append distinct
    rw [insertAfter] at succeeds ⊢
    simp only [cut] at succeeds ⊢
    by_cases overlaps : (rest.head?.any fun next => decide (next.start < stop)) = true
    · rw [if_pos overlaps] at succeeds ⊢
      exact ⟨hint, denotes, .inl ⟨fun free => (by cases (succeeds free).1), rfl⟩⟩
    rw [if_neg overlaps]
    have room : Room { map with hint := hint } before rest start stop := by
      have low : map.minOffset ≤ start := by omega
      have high : stop ≤ map.maxOffset := by omega
      refine ⟨eq, lastStop_le low earlier, by omega, high, fun e mem => ?_⟩
      have segments := inv.list.segments
      rw [eq] at segments
      cases rest with
      | nil => cases mem
      | cons next rest =>
        have first : stop ≤ next.start := by simpa using overlaps
        rcases mem_cons.mp mem with rfl | mem
        · exact first
        · have after := (segments_append.mp segments).2.2
          have := (after.2.2.bounds mem).1
          omega
    refine ⟨hint, denotes, .inr ⟨before, rest, room, ?_⟩⟩
    cases extends_ : before.getLast?.filter fun e => e.insertExtends coalesce object start with
    | some e =>
      obtain ⟨last, ends, -⟩ := insertExtends_of_filter coalesce extends_
      exact .inl ⟨before.dropLast, e, last, ends, rfl⟩
    | none =>
      obtain ⟨new, startEq, stopEq, -⟩ :=
        insertEntry_place zalloc inv.main object offset start stop
      refine .inr ⟨map.insertEntry zalloc object offset start stop, new, startEq, stopEq, rfl⟩
  · simp only [found, changed, if_true] at succeeds ⊢
    exact ⟨hint, denotes, .inl ⟨fun free => (by cases (succeeds free).1), rfl⟩⟩

/-- A range that is mapped while `first_free` is the header lies at the bottom of the map, or behind
another entry. -/
def VmMap.Covered (map : VmMap O) (start : ℕ) : Prop :=
  map.firstFree = none → start ≤ map.minOffset ∨ ∃ e ∈ map.entries, e.start < start

/-- `vm_map_insert` keeps the hint exact, except behind the header with free space in between. -/
theorem VmMap.Inv.insert_hintExact (inv : map.Inv) (exact_ : map.HintExact) (object : Option O)
    (offset : BitVec 32) (start stop : ℕ) :
    (map.vmMapInsert zalloc coalesce object offset start stop).2.HintExact ↔
      (map.Free start stop → map.Covered start) := by
  obtain ⟨hint, denotes, ⟨busy, result⟩ | ⟨before, after, room, outcome⟩⟩ :=
    inv.insert_cases zalloc coalesce object offset start stop
  · rw [result, hintExact_withHint]
    exact iff_of_true exact_ fun free => absurd free busy
  have inv' := inv.withHint denotes
  have list : map.entries = before ++ after := room.list
  have covered (e : Entry O) (last : e ∈ before) : map.Covered start := fun _ => by
    have mem : e ∈ map.entries := by
      rw [list]
      exact mem_append_left _ last
    exact .inr ⟨e, mem, (inv.order mem).trans_le (room.earlier inv' e last)⟩
  rcases outcome with ⟨front, e, rfl, rfl, result⟩ | ⟨new, id, rfl, rfl, result⟩
  · rw [result]
    exact iff_of_true (room.extend_kept inv' exact_) fun _ => covered e (by simp)
  rw [result]
  have free := room.free inv'
  change map.Free new.start new.stop at free
  split_ifs with moves
  · obtain ⟨here, reaches⟩ := moves
    rw [room.link_moved inv' id]
    rcases eq_nil_or_concat' before with rfl | ⟨front, e, rfl⟩
    · -- nothing lies in front of the range: everything below it is free
      have later : ∀ e ∈ map.entries, new.stop ≤ e.start := by
        rw [list]
        exact room.room
      constructor
      · intro mapped _ _
        by_contra ahead
        obtain ⟨bottom, -⟩ := not_or.mp ahead
        obtain ⟨e, mem, low, -⟩ := exists_of_view
          (mapped map.minOffset le_rfl (Nat.lt_of_not_le bottom))
        exact ahead (.inr ⟨e, mem, by omega⟩)
      · intro covered a low high
        change map.minOffset ≤ a at low
        rcases covered free here with bottom | ⟨e, mem, below⟩
        · omega
        · have := later e mem
          have := free.2.2.1
          omega
    · have mem : e ∈ map.entries := by
        rw [list]
        simp
      rw [lastId_concat] at here reaches
      rw [stopOf_eq map inv.list.distinct mem] at reaches
      refine iff_of_true (fun a low high => exact_ e mem here a low (high.trans_le reaches)) ?_
      exact fun _ header => by rw [here] at header; cases header
  · have kept := room.link_kept inv' id exact_
    refine iff_of_true kept fun _ header => ?_
    rcases eq_nil_or_concat' before with rfl | ⟨front, e, rfl⟩
    · refine absurd ⟨header, ?_⟩ moves
      have := free.2.1
      have := free.2.2.1
      show new.start ≤ map.maxOffset
      omega
    · exact covered e (by simp) header

end Insert

/-! ## `vm_map_delete` -/

/-- Cutting the list touches no entry that ends in front of the range, and makes one new entry at
most. -/
theorem VmMap.Inv.clipStart_earlier (inv : map.Inv) (start : ℕ) :
    (∀ e ∈ map.entries, e.stop ≤ start →
      e ∈ (map.clipStart start).before ++ (map.clipStart start).rest) ∧
    ∀ e ∈ (map.clipStart start).before, e ∈ map.entries ∨ e.id = map.counts.nextId := by
  obtain ⟨answers, hint, changed, -, -⟩ := inv.lookup start
  have distinct := inv.list.distinct
  obtain ⟨before, rest, eq, -, ⟨notFound, here, -⟩ | ⟨found, e, rest', rfl, -, high, here⟩⟩ :=
    answers
  · rw [VmMap.clipStart]
    simp only [notFound, changed, here, eq, Bool.false_eq_true, if_false]
    rw [eq] at distinct
    rw [cutAfter_append distinct]
    exact ⟨fun e mem _ => mem, fun e mem => .inl (mem_append_left _ mem)⟩
  · rw [eq] at distinct
    rw [VmMap.clipStart]
    simp only [found, changed, here, eq, if_true, getD_some, cutAt_append distinct]
    split_ifs with clips
    · refine ⟨fun d mem ends => ?_, fun d mem => ?_⟩
      · simp only [mem_append, mem_cons] at mem ⊢
        rcases mem with mem | rfl | mem
        · exact .inl (.inl mem)
        · omega
        · exact .inr (.inr mem)
      · rcases mem_append.mp mem with mem | last
        · exact .inl (mem_append_left _ mem)
        · obtain rfl := mem_singleton.mp last
          exact .inr rfl
    · exact ⟨fun d mem _ => mem, fun d mem => .inl (mem_append_left _ mem)⟩

/-- `vm_map_delete` keeps the hint exact. -/
theorem VmMap.Inv.delete_hintExact (inv : map.Inv) (exact_ : map.HintExact) (start stop : ℕ) :
    (map.vmMapDelete start stop).2.HintExact := by
  have at_ := inv.clipStart start
  obtain ⟨kept, new⟩ := inv.clipStart_earlier start
  have distinct := (inv.delete start stop).1.list.distinct
  -- an entry of the result that has the identity of one in front of the range is that entry
  have same {e e' : Entry O} (mem : e ∈ (map.vmMapDelete start stop).2.entries)
      (inside' : e' ∈ (map.clipStart start).before) (id : e'.id = e.id) : e' = e :=
    inj_on_of_nodup_map distinct (mem_append_left _ inside') mem id
  intro e mem hint a low high
  have front : e.stop ≤ start ∧ (a < e.stop → map.view a ≠ none) := by
    change (if start ≤ _ then _ else _) = some e.id at hint
    split_ifs at hint with within
    · -- the entry in front of the range; the old hint was in the range or behind it
      rcases eq_nil_or_concat' (map.clipStart start).before with empty | ⟨l, e', eq⟩
      · rw [empty] at hint
        cases hint
      rw [eq, lastId_concat] at hint
      have last : e' ∈ (map.clipStart start).before := by
        rw [eq]
        simp
      obtain rfl := same mem last (some.inj hint)
      have ends := at_.earlier e' last
      refine ⟨ends, fun _ => ?_⟩
      cases old : map.firstFree with
      | none =>
        rw [old] at within
        have within : start ≤ map.minOffset := within
        change map.minOffset ≤ a at low
        omega
      | some id =>
        obtain ⟨f, member, rfl⟩ := mem_map.mp (inv.firstFree id old)
        refine exact_ f member old a low ?_
        by_contra below
        have there := kept f member (by omega)
        have starts := startOf_eq { map with
          counts := (map.clipStart start).counts
          entries := (map.clipStart start).before ++ (map.clipStart start).rest }
          at_.inv.distinct there
        rw [← old] at starts
        have := inv.order member
        omega
    · -- the old hint, in front of the range
      have before := at_.denotes_before (inv.firstFree.mono at_.ids) (Nat.lt_of_not_le within)
      obtain ⟨e', inside', id⟩ := mem_map.mp (before e.id hint)
      obtain rfl := same mem inside' id
      refine ⟨at_.earlier e' inside', fun high => ?_⟩
      rcases new e' inside' with old | fresh
      · exact exact_ e' old hint a low high
      · obtain ⟨f, member, id⟩ := mem_map.mp (inv.firstFree _ hint)
        have := inv.list.old f member
        omega
  rw [(inv.delete start stop).2.2, if_neg (by omega)]
  exact front.2 high

/-! ## `vm_map_find_entry` -/

/-- What is mapped behind the first part of the list is mapped by the second. -/
theorem VmMap.Inv.mapped_behind (inv : map.Inv) {pre rest : List (Entry O)}
    (list : map.entries = pre ++ rest) (low : lastStop Entry.stop map.minOffset pre ≤ a)
    (mapped : map.view a ≠ none) : ∃ e ∈ rest, e.start ≤ a := by
  obtain ⟨e, mem, covers, ends⟩ := exists_of_view mapped
  have segments := inv.list.segments
  rw [list] at segments
  rw [list, mem_append] at mem
  rcases mem with mem | mem
  · have := (segments_append.mp segments).1.stop_le_lastStop mem
    omega
  · exact ⟨e, mem, covers⟩

theorem alignUp_idem (mask c : ℕ) : alignUp mask (alignUp mask c) = alignUp mask c := by
  rw [alignUp, alignUp, BitVec.ofNat_toNat, BitVec.setWidth_eq]
  congr 1
  generalize BitVec.ofNat 32 c + BitVec.ofNat 32 mask = x
  have disjoint : (x &&& ~~~BitVec.ofNat 32 mask) &&& BitVec.ofNat 32 mask = 0#32 := by
    rw [BitVec.and_assoc, BitVec.and_comm (~~~BitVec.ofNat 32 mask), BitVec.and_not_self]
    exact BitVec.and_zero
  rw [BitVec.add_eq_or_of_and_eq_zero _ _ disjoint]
  ext i
  simp
  grind

/-- A search from mapped memory finds the lowest free byte, if that is aligned and has enough free
space behind it. -/
theorem VmMap.Inv.firstFit_lowest (inv : map.Inv) {mask g : ℕ} {pre rest : List (Entry O)}
    (_ : size < 2 ^ 32) (whole : map.maxOffset < 2 ^ 32) (list : map.entries = pre ++ rest)
    (low : lastStop Entry.stop map.minOffset pre ≤ start) (next : ∀ e ∈ rest, start ≤ e.start)
    (mapped : ∀ a, start ≤ a → a < g → map.view a ≠ none) (reaches : start ≤ g)
    (forward : Candidates (fun candidate => candidate ≤ alignUp mask candidate) (alignUp mask)
      map.maxOffset size start rest)
    (aligned : alignUp mask g = g) (free : map.Free g (g + size))
    (fit : firstFit (alignUp mask) map.maxOffset size pointer start rest = some found) :
    found.2 = g := by
  have ⟨_, top, nonempty, unmapped⟩ := free
  induction rest generalizing pre start pointer with
  | nil =>
    have here : start = g := by
      by_contra below
      obtain ⟨e, mem, -⟩ := inv.mapped_behind list low (mapped start le_rfl (by omega))
      cases mem
    rw [firstFit] at fit
    split_ifs at fit
    cases fit
    rw [here]
    exact aligned
  | cons cur rest ih =>
    have mem : cur ∈ map.entries := by
      rw [list]
      simp
    have order := inv.order mem
    have begins := next cur mem_cons_self
    rw [firstFit] at fit
    by_cases here : start = g
    · subst here
      have clear : start + size ≤ cur.start := by
        rcases free.beside mem order with clear | behind
        · exact clear
        · omega
      rw [aligned, Nat.mod_eq_of_lt (by omega), if_neg (by omega), if_pos clear] at fit
      cases fit
      rfl
    · -- the start is mapped, by the next entry
      obtain ⟨e, member, covers⟩ := inv.mapped_behind list low (mapped start le_rfl (by omega))
      have segments := inv.list.segments
      rw [list] at segments
      have after := (segments_append.mp segments).2
      have touches : cur.start = start := by
        rcases mem_cons.mp member with rfl | member
        · omega
        · have := (after.2.2.2.bounds member).1
          omega
      obtain ⟨forward, further⟩ := forward
      split_ifs at fit with fails clear
      · omega
      have past : cur.stop ≤ g := by
        by_contra within
        exact view_ne_none mem (by omega) (by omega) (unmapped g le_rfl (by omega))
      rw [append_cons] at list
      exact ih list (by rw [lastStop_concat]) (fun e mem => (after.2.2.2.bounds mem).1)
        (fun a low => mapped a (by omega)) past (further fails (by omega)) fit

/-- The address that a search finds has been aligned. -/
theorem firstFit_align {align : ℕ → ℕ} {max : ℕ} (fit : firstFit align max size pointer start rest = some found) :
    ∃ c, found.2 = align c := by
  induction rest generalizing start pointer with
  | nil =>
    rw [firstFit] at fit
    split_ifs at fit
    cases fit
    exact ⟨start, rfl⟩
  | cons next rest ih =>
    rw [firstFit] at fit
    split_ifs at fit
    · cases fit
      exact ⟨start, rfl⟩
    · exact ih fit

section FindEntry

variable [DecidableEq O] (zalloc : ℕ → Entry O)

/-- After `vm_map_find_entry` the hint is exact if and only if everything below the range that it
has found is mapped. -/
theorem VmMap.Inv.findEntry_hintExact (inv : map.Inv) {size mask : ℕ} (positive : 0 < size)
    (small : size < 2 ^ 32) (whole : map.AlignsWhole size mask) (object : Option O)
    {found : Option ℕ × ℕ}
    (fit : firstFit (alignUp mask) map.maxOffset size map.firstFree map.freeStart
      (cutAfter map.entries map.firstFree).2 = some found) :
    (map.vmMapFindEntry zalloc size mask object).2.2.HintExact ↔
      ∀ a, map.minOffset ≤ a → a < found.2 → map.view a ≠ none := by
  obtain ⟨pre, rest, eq, last, cut, low, next⟩ := inv.freeStart
  rw [AlignsWhole, cut] at whole
  rw [vmMapFindEntry, fit]
  rw [cut, last] at fit
  obtain ⟨before, after, entry, -, wholeStop, room⟩ := firstFit_room positive small inv eq
    low.le next (whole.imp fun c whole => le_alignUp whole) fit
  obtain ⟨entry', start⟩ := found
  dsimp only at entry wholeStop room ⊢
  subst entry
  have distinct := inv.list.distinct
  have cut' : cutAfter map.entries (lastId before) = (before, after) := by
    rw [room.list] at distinct ⊢
    exact cutAfter_append distinct
  rw [wholeStop, cut']
  cases extends_ : before.getLast?.filter fun e => e.findEntryExtends object start with
  | some e =>
    obtain ⟨eqLast, rfl, -⟩ := findEntryExtends_of_filter extends_
    rw [eqLast] at room
    rw [eqLast]
    exact room.extend_moved inv
  | none =>
    have room : Room map before after (map.findEntryNew zalloc start (start + size)).start
      (map.findEntryNew zalloc start (start + size)).stop := room
    exact room.link_moved inv rfl

/-- `vm_map_find_entry` keeps the hint exact if and only if it finds nothing, or the lowest free
byte. -/
theorem VmMap.Inv.findEntry_keeps (inv : map.Inv) (exact_ : map.HintExact)
    (whole : map.maxOffset < 2 ^ 32) {size mask : ℕ} (positive : 0 < size) (small : size < 2 ^ 32)
    (aligns : map.AlignsWhole size mask) (object : Option O) :
    (map.vmMapFindEntry zalloc size mask object).2.2.HintExact ↔
      (firstFit (alignUp mask) map.maxOffset size map.firstFree map.freeStart
        (cutAfter map.entries map.firstFree).2 ≠ none →
        ∀ g, IsLeast (map.fits 0 1) g → alignUp mask g = g ∧ map.Free g (g + size)) := by
  cases fit : firstFit (alignUp mask) map.maxOffset size map.firstFree map.freeStart
      (cutAfter map.entries map.firstFree).2 with
  | none =>
    rw [vmMapFindEntry, fit]
    exact iff_of_true exact_ fun found => absurd rfl found
  | some found =>
    rw [inv.findEntry_hintExact zalloc positive small aligns object fit]
    obtain ⟨pre, rest, eq, last, cut, low, next⟩ := inv.freeStart
    rw [AlignsWhole, cut] at aligns
    have forward := aligns.imp fun c aligns => le_alignUp aligns
    rw [cut] at fit
    obtain ⟨before, after, -, -, -, room⟩ := firstFit_room positive small inv eq low.le next forward
      (by rw [← last]; exact fit)
    have free := room.free inv
    have byte {a : ℕ} (bottom : map.minOffset ≤ a) (below : a ≤ found.2)
        (unmapped : map.view a = none) : a ∈ map.fits 0 1 := by
      have := free.2.1
      refine ⟨max_le (Nat.zero_le a) bottom, bottom, by omega, by omega, fun b least most => ?_⟩
      obtain rfl : b = a := by omega
      exact unmapped
    constructor
    · intro mapped _ g least
      have most := least.2 (byte free.1 le_rfl (free.2.2.2 _ le_rfl (by omega)))
      obtain rfl : g = found.2 := by
        refine le_antisymm most (Nat.le_of_not_lt fun below => ?_)
        obtain ⟨-, bottom, -, -, unmapped⟩ := least.1
        exact mapped g bottom below (unmapped g le_rfl (Nat.lt_succ_self g))
      obtain ⟨c, aligned⟩ := firstFit_align fit
      refine ⟨?_, free⟩
      rw [aligned, alignUp_idem]
    · intro lowest a bottom below unmapped
      classical
      obtain ⟨g, least⟩ : ∃ g, IsLeast (map.fits 0 1) g :=
        ⟨_, Set.Nonempty.isLeast_natFind ⟨a, byte bottom below.le unmapped⟩⟩
      obtain ⟨aligned, enough⟩ := lowest (some_ne_none _) _ least
      have first := least.2 (byte bottom below.le unmapped)
      obtain ⟨-, bottom', -, -, unmapped'⟩ := least.1
      have unmapped' := unmapped' g le_rfl (Nat.lt_succ_self g)
      have reaches : map.freeStart ≤ g := by
        by_contra below
        exact inv.hintExact_iff.mp exact_ g bottom' (by omega) unmapped'
      have here := inv.firstFit_lowest small whole eq low.le next (fun b above below free => ?_)
        reaches forward aligned enough fit
      · omega
      have segments := inv.list.segments
      rw [eq] at segments
      have := (segments_append.mp segments).1.le_lastStop
      have := least.2 (byte (a := b) (by omega) (by omega) free)
      omega

end FindEntry

/-! ## Runs -/

section Runs

variable (zalloc : ℕ → Entry O) (coalesce : O → Bool)

/-- The operations that map and unmap ranges. -/
def Op.Allocates : Op O → Prop
  | .insert .. | .find .. | .findEntry .. | .delete .. => True
  | _ => False

/-- No operation puts an entry behind the header with free space in between, and
`vm_map_find_entry` takes the lowest free byte. -/
def Op.KeepsHint (map : VmMap O) : Op O → Prop
  | .insert _ _ start stop => map.Free start.toNat stop.toNat → map.Covered start.toNat
  | .find _ _ address length true =>
    ∀ a, IsLeast (map.fits address.toNat length.toNat) a → map.Covered a
  | .find _ _ address length false =>
    map.Free address.toNat ((address.toNat + length.toNat) % 2 ^ 32) → map.Covered address.toNat
  | .findEntry size mask _ =>
    firstFit (alignUp mask.toNat) map.maxOffset size.toNat map.firstFree map.freeStart
        (cutAfter map.entries map.firstFree).2 ≠ none →
      ∀ g, IsLeast (map.fits 0 1) g → alignUp mask.toNat g = g ∧ map.Free g (g + size.toNat)
  | _ => True

variable (inv : map.Inv)

include inv

/-- The search of `vm_map_find` puts an entry at the lowest address that fits. -/
theorem VmMap.Inv.find_keeps (exact_ : map.HintExact)
    (whole : map.maxOffset < 2 ^ 32) (object : Option O) (offset address length : BitVec 32) :
    (map.vmMapFind zalloc coalesce object offset address.toNat length.toNat true).2.2.HintExact ↔
      ∀ a, IsLeast (map.fits address.toNat length.toNat) a → map.Covered a := by
  have least {a : ℕ} (fit : a ∈ map.fits address.toNat length.toNat) :=
    inv.findSpace_le exact_ whole fit
  obtain ⟨⟨hint, changed, denotes⟩, room⟩ := inv.findSpace address.toNat length.isLt
  rw [vmMapFind, if_pos rfl]
  generalize map.findSpace address.toNat length.toNat = result at *
  obtain ⟨found, map'⟩ := result
  subst changed
  cases found with
  | none =>
    refine iff_of_true exact_ fun a lowest => ?_
    obtain ⟨_, missing, -⟩ := least lowest.1
    cases missing
  | some start =>
    have fit (positive : 0 < length.toNat) : start ∈ map.fits address.toNat length.toNat := by
      obtain ⟨above, bottom, before, after, room⟩ := room start rfl positive
      exact ⟨max_le above bottom, room.free inv⟩
    have below {a : ℕ} (other : a ∈ map.fits address.toNat length.toNat) : start ≤ a := by
      obtain ⟨_, same, le⟩ := least other
      cases same
      exact le
    rw [(inv.withHint denotes).insert_hintExact zalloc coalesce exact_]
    constructor
    · intro covered a lowest
      have positive : 0 < length.toNat := by
        have := lowest.1.2.2.2.1
        omega
      obtain rfl : start = a := le_antisymm (below lowest.1) (lowest.2 (fit positive))
      refine covered ?_
      rw [Nat.mod_eq_of_lt (lowest.1.2.2.1.trans_lt whole)]
      exact lowest.1.2
    · intro covered free
      have := length.isLt
      have positive : 0 < length.toNat := by
        have : start < (start + length.toNat) % 2 ^ 32 := free.2.2.1
        omega
      exact covered start ⟨fit positive, fun a other => below other⟩

theorem VmMap.Inv.insert_bounds (object : Option O) (offset : BitVec 32)
    (start stop : ℕ) :
    (map.vmMapInsert zalloc coalesce object offset start stop).2.minOffset = map.minOffset ∧
      (map.vmMapInsert zalloc coalesce object offset start stop).2.maxOffset = map.maxOffset := by
  obtain ⟨hint, -, ⟨-, result⟩ | ⟨before, after, -, outcome⟩⟩ :=
    inv.insert_cases zalloc coalesce object offset start stop
  · rw [result]
    exact ⟨rfl, rfl⟩
  rcases outcome with ⟨_, e, -, -, result⟩ | ⟨new, -, -, -, result⟩
  · rw [result]
    exact ⟨rfl, rfl⟩
  · rw [result]
    exact ⟨rfl, rfl⟩

theorem VmMap.Inv.find_bounds (object : Option O) (offset : BitVec 32)
    (address : ℕ) {length : ℕ} (small : length < 2 ^ 32) (findSpace : Bool) :
    (map.vmMapFind zalloc coalesce object offset address length findSpace).2.2.minOffset =
        map.minOffset ∧
      (map.vmMapFind zalloc coalesce object offset address length findSpace).2.2.maxOffset =
        map.maxOffset := by
  rw [vmMapFind]
  split_ifs
  · obtain ⟨⟨hint, changed, denotes⟩, -⟩ := inv.findSpace address small
    generalize map.findSpace address length = result at *
    obtain ⟨found, map'⟩ := result
    subst changed
    cases found with
    | none => exact ⟨rfl, rfl⟩
    | some start => exact (inv.withHint denotes).insert_bounds zalloc coalesce object offset _ _
  · exact inv.insert_bounds zalloc coalesce object offset _ _

variable [DecidableEq O]

/-- The hint is exact after an operation if and only if the operation keeps it so. -/
theorem VmMap.Inv.step_hintExact (exact_ : map.HintExact)
    (whole : map.maxOffset < 2 ^ 32) (op : Op O) (allocates : op.Allocates) (sized : op.Sized)
    (aligned : op.Aligned map) :
    (map.step zalloc coalesce op).2.2.HintExact ↔ op.KeepsHint map := by
  cases op with
  | insert object offset start stop =>
    exact inv.insert_hintExact zalloc coalesce exact_ object offset start.toNat stop.toNat
  | find object offset address length findSpace =>
    cases findSpace with
    | false =>
      show (map.vmMapFind zalloc coalesce object offset _ _ false).2.2.HintExact ↔ _
      rw [vmMapFind, if_neg Bool.false_ne_true]
      exact inv.insert_hintExact zalloc coalesce exact_ object offset _ _
    | true => exact inv.find_keeps zalloc coalesce exact_ whole object offset address length
  | findEntry size mask object =>
    exact inv.findEntry_keeps zalloc exact_ whole sized size.isLt aligned object
  | delete start stop =>
    exact iff_of_true (inv.delete_hintExact exact_ start.toNat stop.toNat) trivial
  | remove start stop => exact allocates.elim
  | protect start stop newProt setMax => exact allocates.elim
  | inherit start stop newInheritance => exact allocates.elim
  | reallocate start stop => exact allocates.elim

/-- The operations do not move the bounds of the map. -/
theorem VmMap.Inv.step_bounds (op : Op O) (allocates : op.Allocates) :
    (map.step zalloc coalesce op).2.2.minOffset = map.minOffset ∧
      (map.step zalloc coalesce op).2.2.maxOffset = map.maxOffset := by
  cases op with
  | insert object offset start stop => exact inv.insert_bounds zalloc coalesce object offset _ _
  | find object offset address length findSpace =>
    exact inv.find_bounds zalloc coalesce object offset address.toNat length.isLt findSpace
  | findEntry size mask object =>
    rw [VmMap.step, VmMap.vmMapFindEntry]
    split
    · exact ⟨rfl, rfl⟩
    · dsimp only
      split <;> exact ⟨rfl, rfl⟩
  | delete start stop => exact ⟨rfl, rfl⟩
  | remove start stop => exact allocates.elim
  | protect start stop newProt setMax => exact allocates.elim
  | inherit start stop newInheritance => exact allocates.elim
  | reallocate start stop => exact allocates.elim

omit inv

/-- What holds in a run whose operations keep the hint exact. -/
theorem Reachable.hintExact (reachable : Reachable (fun map op =>
      op.Allocates ∧ op.Sized ∧ op.Aligned map ∧ op.KeepsHint map) map) :
    map.Inv ∧ map.minOffset < 2 ^ 32 ∧ map.maxOffset < 2 ^ 32 ∧ map.HintExact := by
  induction reachable with
  | create min max =>
    exact ⟨vmMapCreate_inv _ _, min.isLt, max.isLt, fun _ mem => nomatch mem⟩
  | step reachable zalloc coalesce op condition ih =>
    obtain ⟨inv, bottom, whole, exact_⟩ := ih
    obtain ⟨allocates, sized, aligned, keeps⟩ := condition
    obtain ⟨min, max⟩ := inv.step_bounds zalloc coalesce op allocates
    refine ⟨(inv.step zalloc coalesce op sized aligned).1, by rwa [min], by rwa [max], ?_⟩
    exact (inv.step_hintExact zalloc coalesce exact_ whole op allocates sized aligned).mpr keeps

/-- `vm_map_find` is first-fit in every map that a run makes of a fresh one, where no range is
mapped behind the header with free space in between and `vm_map_find_entry` takes the lowest free
byte; and an operation on such a map that does otherwise ends that. -/
theorem vmMapFind_firstFit (reachable : Reachable (fun map op =>
      op.Allocates ∧ op.Sized ∧ op.Aligned map ∧ op.KeepsHint map) map) :
    map.FirstFit ∧ map.HintExact ∧ ∀ zalloc coalesce op, op.Allocates → op.Sized → op.Aligned map →
        ((map.step zalloc coalesce op).2.2.FirstFit ↔ op.KeepsHint map) ∧
        ((map.step zalloc coalesce op).2.2.HintExact ↔ op.KeepsHint map) := by
  obtain ⟨inv, bottom, whole, exact_⟩ := reachable.hintExact
  refine ⟨inv.firstFit_of_exact whole exact_, exact_, ?_⟩
  intro zalloc coalesce op allocates sized aligned
  obtain ⟨min, max⟩ := inv.step_bounds zalloc coalesce op allocates
  have kept := (inv.step zalloc coalesce op sized aligned).1
  have keeps := inv.step_hintExact zalloc coalesce exact_ whole op allocates sized aligned
  refine ⟨?_, keeps⟩
  rw [kept.firstFit_iff (by rwa [min]) (by rwa [max])]
  exact keeps

end Runs

/-- Two pages are found at the bottom of the map, a page is mapped above them, and the first page is
unmapped: it is what the next search finds. -/
theorem vmMapFind_firstFit_sample :
    let map := sampleRun (vmMapCreate Unit 0x1000 0xfffff000)
      [.find none 0 0x1000 0x2000 true, .insert none 0 0x8000 0x9000, .delete 0x1000 0x2000]
    map.entries.map (fun e => (e.start, e.stop)) = [(0x2000, 0x3000), (0x8000, 0x9000)] ∧
      map.FirstFit := by
  intro map
  have free : ∀ a, (vmMapCreate Unit 0x1000 0xfffff000).view a = none := fun a => rfl
  have reachable : Reachable (fun map op =>
      op.Allocates ∧ op.Sized ∧ op.Aligned map ∧ op.KeepsHint map) map := by
    refine ((((Reachable.create 0x1000 0xfffff000).step (fun _ => sampleEntry) (fun _ => false)
      (.find none 0 0x1000 0x2000 true) ⟨trivial, trivial, trivial, ?_⟩).step
      (fun _ => sampleEntry) (fun _ => false) (.insert none 0 0x8000 0x9000)
      ⟨trivial, trivial, trivial, ?_⟩).step (fun _ => sampleEntry) (fun _ => false)
      (.delete 0x1000 0x2000) ⟨trivial, trivial, trivial, trivial⟩)
    · intro a least _
      refine .inl (least.2 ⟨?_, ?_, ?_, ?_, fun a _ _ => free a⟩) <;> decide
    · intro _ header
      exact absurd header (by decide +kernel)
  exact ⟨by decide +kernel, (vmMapFind_firstFit reachable).1⟩

/-- A page is mapped in the middle of a fresh map: the next search for a page from the bottom on
finds the address behind it, although the map is free below it. -/
theorem vmMapFind_skips : ∃ map : VmMap Unit,
    Reachable (fun map op => op.Allocates ∧ op.Sized ∧ op.Aligned map) map ∧
    (map.vmMapFind (fun _ => sampleEntry) (fun _ => false) none 0 0x1000 0x1000 true).2.1 = 0x6000 ∧
    IsLeast (map.fits 0x1000 0x1000) 0x1000 ∧ ¬ map.FirstFit ∧ ¬ map.HintExact := by
  obtain ⟨map, run⟩ : ∃ map, map = sampleRun (vmMapCreate Unit 0x1000 0xfffff000)
    [.find none 0 0x5000 0x1000 false] := ⟨_, rfl⟩
  have reachable : Reachable (fun map op => op.Allocates ∧ op.Sized ∧ op.Aligned map) map := by
    rw [run]
    exact (Reachable.create 0x1000 0xfffff000).step (fun _ => sampleEntry) (fun _ => false)
      (.find none 0 0x5000 0x1000 false) ⟨trivial, trivial, trivial⟩
  have entries : map.entries.map (fun e => (e.id, e.start, e.stop)) = [(0, 0x5000, 0x6000)] := by
    rw [run]
    decide +kernel
  have hint : map.firstFree = some 0 ∧ map.minOffset = 0x1000 ∧ map.maxOffset = 0xfffff000 := by
    rw [run]
    decide +kernel
  have found : (map.vmMapFind (fun _ => sampleEntry) (fun _ => false) none 0 0x1000 0x1000
      true).2.1 = 0x6000 := by
    rw [run]
    decide +kernel
  obtain ⟨e, list, place⟩ := map_eq_singleton_iff.mp entries
  obtain ⟨id, start, stop⟩ : e.id = 0 ∧ e.start = 0x5000 ∧ e.stop = 0x6000 :=
    ⟨congrArg (·.1) place, congrArg (·.2.1) place, congrArg (·.2.2) place⟩
  have free (a : ℕ) (below : a < 0x5000) : map.view a = none := by
    rw [view, list]
    refine viewList_of_lt_start fun d mem => ?_
    obtain rfl := mem_singleton.mp mem
    omega
  have least : IsLeast (map.fits 0x1000 0x1000) 0x1000 := by
    refine ⟨⟨by omega, by omega, by omega, by omega, fun a _ below => free a (by omega)⟩, ?_⟩
    exact fun a fit => (le_max_left _ _).trans fit.1
  refine ⟨map, reachable, found, least, fun firstFit => ?_, fun exact_ => ?_⟩
  · have same := ((firstFit (fun _ => sampleEntry) (fun _ => false) none 0 0x1000 0x1000
      (by decide)).1 0x1000 least).2
    exact absurd (found.symm.trans same) (by decide)
  · refine exact_ e (by rw [list]; exact mem_singleton_self e) ?_ 0x1000 (by omega) (by omega)
      (free 0x1000 (by decide))
    rw [hint.1, id]

end Darwin.Vm.Map
