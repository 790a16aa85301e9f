import Darwin.Kern.Zalloc.Reclaim

/-!
# The free elements of a zone

The free elements of a zone are chained through their first words, in the order of their addresses.
The search for the place of an element that is freed starts at the last one that was, if it can.

## Main results

* `removeFromZone_spec`, `addToZone_spec`: an element is taken and put back.
* `zoneCollect_spec`: `zone_collect` moves all free elements of a zone to its free space.
-/

namespace Darwin.Kern.Zalloc

open List Darwin.Lib Memory

section Model

/-- `struct zone`, of a zone that is not pageable.  The list of the free elements starts at the word
`freeElements`, and `freeSpace` is the index of the free space, 0 being the default space. -/
structure Zone where
  freeElements : ℕ
  lastInsert : ℕ
  count : ℤ
  elemSize : ℕ
  curSize : ℕ
  maxSize : ℕ
  exhaustible : Bool
  expandable : Bool
  freeSpace : ℕ

/-- `ADD_TO_ZONE`. -/
def addToZone (turns : ℕ) (zone : Zone) (mem : Memory) (element : ℕ) : Option (Memory × Zone) :=
  let last :=
    if zone.lastInsert ≠ 0 ∧ element > zone.lastInsert then zone.lastInsert
    else zone.freeElements
  match walk mem (fun cur => element > cur) turns last with
  | none => none
  | some last =>
    let mem := mem.set element (mem last)
    let mem := mem.set last element
    some (mem, { zone with lastInsert := element, count := zone.count - 1 })

/-- `REMOVE_FROM_ZONE`: the first free element, or 0. -/
def removeFromZone (zone : Zone) (mem : Memory) : ℕ × Memory × Zone :=
  let ret := mem zone.freeElements
  if ret ≠ 0 then
    let lastInsert := if zone.lastInsert = ret then 0 else zone.lastInsert
    (ret, mem.set zone.freeElements (mem ret),
      { zone with count := zone.count + 1, lastInsert := lastInsert })
  else (0, mem, zone)

/-- The loop of `zone_collect` over the free elements; `last` is where the search of the free space
has come to. -/
def zoneCollectLoop (walkTurns : ℕ) :
    ℕ → FreeSpace → Memory → ℕ → Zone → Option (Memory × FreeSpace × Zone)
  | 0, _, _, _, _ => none
  | turns + 1, space, mem, last, zone =>
    let elem := mem zone.freeElements
    if elem = 0 then some (mem, space, { zone with lastInsert := 0 })
    else
      let zone := { zone with curSize := sub32 zone.curSize zone.elemSize }
      let next := mem elem
      match collectElement walkTurns space mem last elem zone.elemSize with
      | none => none
      | some (last, mem, space) =>
        zoneCollectLoop walkTurns turns space (mem.set zone.freeElements next) last zone

end Model

section Chains

/-- The list behind `slot` holds these elements. -/
def Chained (mem : Memory) : ℕ → List ℕ → Prop
  | slot, [] => mem slot = 0
  | slot, e :: es => mem slot = e ∧ Chained mem e es

/-- The place behind the last of these elements. -/
def lastSlot (slot : ℕ) : List ℕ → ℕ
  | [] => slot
  | e :: es => lastSlot e es

variable {mem mem' : Memory} {slot slot' element turns last : ℕ} {es k₁ k₂ : List ℕ}

/-- A chain depends on where it starts and on the words at its elements. -/
theorem Chained.move (chained : Chained mem slot es) (head : mem' slot' = mem slot)
    (same : ∀ e ∈ es, mem' e = mem e) : Chained mem' slot' es := by
  induction es generalizing slot slot' with
  | nil => exact head.trans chained
  | cons e es ih =>
    refine ⟨head.trans chained.1, ih chained.2 (same e mem_cons_self) ?_⟩
    exact fun e' inside => same e' (mem_cons_of_mem _ inside)

theorem Chained.behind (chained : Chained mem slot (k₁ ++ element :: k₂)) :
    Chained mem element k₂ := by
  induction k₁ generalizing slot with
  | nil => exact chained.2
  | cons e es ih => exact ih chained.2

theorem lastSlot_append : lastSlot slot (k₁ ++ k₂) = lastSlot (lastSlot slot k₁) k₂ := by
  induction k₁ generalizing slot with
  | nil => rfl
  | cons e es ih => exact ih

theorem lastSlot_mem (slot : ℕ) (es : List ℕ) :
    lastSlot slot es = slot ∨ lastSlot slot es ∈ es := by
  induction es generalizing slot with
  | nil => exact .inl rfl
  | cons e es ih =>
    right
    rcases ih e with same | inside
    · rw [lastSlot, same]
      exact mem_cons_self
    · exact mem_cons_of_mem _ inside

/-- Where a search of a chain ends. -/
theorem walk_chain {goesOn : ℕ → Bool} (chained : Chained mem slot es)
    (positive : ∀ e ∈ es, 0 < e) (found : walk mem goesOn turns slot = some last) :
    ∃ k₁ k₂, es = k₁ ++ k₂ ∧ last = lastSlot slot k₁ ∧ (∀ e ∈ k₁, goesOn e = true) ∧
      ∀ e t, k₂ = e :: t → goesOn e = false := by
  induction turns generalizing slot es with
  | zero => cases found
  | succ turns ih =>
    rw [walk] at found
    cases es with
    | nil =>
      rw [if_neg (fun some_left => some_left.1 chained)] at found
      cases found
      exact ⟨[], [], rfl, rfl, fun e inside => absurd inside not_mem_nil,
        fun e t split => by cases split⟩
    | cons e es =>
      obtain ⟨first, rest⟩ := chained
      rw [first] at found
      split at found
      case isTrue goes =>
        obtain ⟨k₁, k₂, rfl, last_eq, passed, stopped⟩ :=
          ih rest (fun e' inside => positive e' (mem_cons_of_mem _ inside)) found
        refine ⟨e :: k₁, k₂, rfl, last_eq, ?_, stopped⟩
        intro e' inside
        rcases mem_cons.mp inside with rfl | inside
        · exact goes.2
        · exact passed e' inside
      case isFalse stays =>
        cases found
        refine ⟨[], e :: es, rfl, rfl, fun e inside => absurd inside not_mem_nil, ?_⟩
        rintro e' t ⟨⟩
        have not_null : e ≠ 0 := Nat.ne_of_gt (positive e mem_cons_self)
        cases goes : goesOn e with
        | false => rfl
        | true => exact absurd ⟨not_null, goes⟩ stays

/-- A new element between the elements in front and those behind. -/
theorem chain_insert (chained : Chained mem slot (k₁ ++ k₂))
    (distinct : (slot :: element :: (k₁ ++ k₂)).Nodup) :
    Chained ((mem.set element (mem (lastSlot slot k₁))).set (lastSlot slot k₁) element) slot
      (k₁ ++ element :: k₂) := by
  induction k₁ generalizing slot with
  | nil =>
    simp only [nil_append, nodup_cons, mem_cons, not_or] at distinct
    obtain ⟨⟨not_own, not_behind⟩, own_behind, -⟩ := distinct
    refine ⟨set_self .., ?_⟩
    apply chained.move
    · exact (set_other (Ne.symm not_own)).trans (set_self ..)
    intro e inside
    have off_slot : e ≠ slot := fun same => not_behind (same ▸ inside)
    have off_own : e ≠ element := fun same => own_behind (same ▸ inside)
    exact (set_other off_slot).trans (set_other off_own)
  | cons e es ih =>
    simp only [cons_append, nodup_cons, mem_cons, not_or] at distinct
    obtain ⟨⟨not_own, not_first, not_behind⟩, ⟨own_first, own_behind⟩, first_behind, nodup⟩ :=
      distinct
    have last_ne : slot ≠ lastSlot e es := by
      rcases lastSlot_mem e es with same | inside
      · rw [same]
        exact not_first
      · intro same
        exact not_behind (mem_append_left _ (same ▸ inside))
    constructor
    · exact (set_other last_ne).trans ((set_other not_own).trans chained.1)
    · apply ih chained.2
      simp only [nodup_cons, mem_cons, not_or]
      exact ⟨⟨Ne.symm own_first, first_behind⟩, own_behind, nodup⟩

end Chains

section Zones

/-- The free elements of a zone in memory are in order. -/
structure ZoneKept (mem : Memory) (zone : Zone) (es : List ℕ) : Prop where
  chained : Chained mem zone.freeElements es
  sorted : es.Pairwise (· < ·)
  positive : ∀ e ∈ es, 0 < e
  last : zone.lastInsert = 0 ∨ zone.lastInsert ∈ es
  head : zone.freeElements ∉ es

/-- What does not change about a zone. -/
structure SameZone (zone zone' : Zone) : Prop where
  freeElements : zone'.freeElements = zone.freeElements
  elemSize : zone'.elemSize = zone.elemSize
  freeSpace : zone'.freeSpace = zone.freeSpace

variable {mem mem' : Memory} {zone zone' zone'' : Zone} {element turns : ℕ} {es : List ℕ}

theorem SameZone.refl : SameZone zone zone := ⟨rfl, rfl, rfl⟩

theorem SameZone.trans (first : SameZone zone zone') (second : SameZone zone' zone'') :
    SameZone zone zone'' where
  freeElements := second.freeElements.trans first.freeElements
  elemSize := second.elemSize.trans first.elemSize
  freeSpace := second.freeSpace.trans first.freeSpace

variable (kept : ZoneKept mem zone es)

include kept

theorem ZoneKept.congr
    (head : mem' zone.freeElements = mem zone.freeElements) (same : ∀ e ∈ es, mem' e = mem e) :
    ZoneKept mem' zone es where
  chained := kept.chained.move head same
  sorted := kept.sorted
  positive := kept.positive
  last := kept.last
  head := kept.head

/-- `REMOVE_FROM_ZONE`: nothing happens to an empty zone, and otherwise the first element goes. -/
theorem removeFromZone_spec :
    (es = [] ∧ removeFromZone zone mem = (0, mem, zone)) ∨
      ∃ e t zone', es = e :: t ∧ e ≠ 0 ∧ SameZone zone zone' ∧
        removeFromZone zone mem = (e, mem.set zone.freeElements (mem e), zone') ∧
        ZoneKept (mem.set zone.freeElements (mem e)) zone' t := by
  rw [removeFromZone]
  cases es with
  | nil =>
    left
    have null : mem zone.freeElements = 0 := kept.chained
    rw [null]
    exact ⟨rfl, rfl⟩
  | cons e t =>
    right
    have first : mem zone.freeElements = e := kept.chained.1
    have not_null : e ≠ 0 := Nat.ne_of_gt (kept.positive e mem_cons_self)
    have sorted := pairwise_cons.mp kept.sorted
    rw [first]
    rw [if_pos not_null]
    refine ⟨e, t, { zone with
      count := zone.count + 1
      lastInsert := if zone.lastInsert = e then 0 else zone.lastInsert },
      rfl, not_null, ⟨rfl, rfl, rfl⟩, rfl, ?_, sorted.2, ?_, ?_, ?_⟩
    · apply kept.chained.2.move (set_self ..)
      intro e' inside
      apply set_other
      rintro rfl
      exact kept.head (mem_cons_of_mem _ inside)
    · exact fun e' inside => kept.positive e' (mem_cons_of_mem _ inside)
    · dsimp only
      split_ifs with own
      · exact .inl rfl
      rcases kept.last with null | inside
      · exact .inl null
      · rcases mem_cons.mp inside with same | inside
        · exact absurd same own
        · exact .inr inside
    · exact fun inside => kept.head (mem_cons_of_mem _ inside)

/-- `ADD_TO_ZONE` puts the element where it belongs. -/
theorem addToZone_spec (positive : 0 < element)
    (new : element ∉ es) (head : element ≠ zone.freeElements)
    (added : addToZone turns zone mem element = some (mem', zone')) :
    ∃ k₁ k₂, es = k₁ ++ k₂ ∧ SameZone zone zone' ∧ ZoneKept mem' zone' (k₁ ++ element :: k₂) ∧
      ∀ a, a ≠ zone.freeElements → a ∉ es → a ≠ element → mem' a = mem a := by
  -- Wherever the search starts, it ends at the place of the element in the whole list.
  have place : ∃ k₁ k₂, es = k₁ ++ k₂ ∧ (∀ e ∈ k₁, e < element) ∧ (∀ e ∈ k₂, element < e) ∧
      mem' = (mem.set element (mem (lastSlot zone.freeElements k₁))).set
        (lastSlot zone.freeElements k₁) element ∧
      zone' = { zone with lastInsert := element, count := zone.count - 1 } := by
    have above : ∀ {k₁ k₂ : List ℕ}, es = k₁ ++ k₂ →
        (∀ e t, k₂ = e :: t → decide (element > e) = false) → ∀ e ∈ k₂, element < e := by
      rintro k₁ k₂ rfl stopped e inside
      cases k₂ with
      | nil => cases inside
      | cons c t =>
        have stays := of_decide_eq_false (stopped c t rfl)
        have sorted := (pairwise_append.mp kept.sorted).2.1
        have order : c ≤ e := by
          rcases mem_cons.mp inside with rfl | later
          · exact Nat.le_refl _
          · exact Nat.le_of_lt ((pairwise_cons.mp sorted).1 e later)
        have other : e ≠ element := fun same => new (same ▸ mem_append_right _ inside)
        omega
    rw [addToZone] at added
    split at added
    · cases added
    rename_i last searched
    cases added
    split at searched
    case isTrue later =>
      obtain ⟨some_last, after⟩ := later
      have inside := kept.last.resolve_left some_last
      obtain ⟨p, s, rfl⟩ := append_of_mem inside
      have behind := kept.chained.behind
      obtain ⟨m₁, m₂, rfl, rfl, passed, stopped⟩ := walk_chain behind
        (fun e inside => kept.positive e (mem_append_right _ (mem_cons_of_mem _ inside)))
        searched
      have shape : p ++ zone.lastInsert :: (m₁ ++ m₂) = (p ++ zone.lastInsert :: m₁) ++ m₂ := by
        rw [append_assoc, cons_append]
      have last_eq : lastSlot zone.freeElements (p ++ zone.lastInsert :: m₁) =
          lastSlot zone.lastInsert m₁ := lastSlot_append
      refine ⟨p ++ zone.lastInsert :: m₁, m₂, shape, ?_, above shape stopped, ?_, rfl⟩
      · intro e inside
        rcases mem_append.mp inside with before | inside
        · have order := (pairwise_append.mp kept.sorted).2.2 e before zone.lastInsert mem_cons_self
          omega
        · rcases mem_cons.mp inside with rfl | between
          · exact after
          · exact of_decide_eq_true (passed e between)
      · rw [last_eq]
    case isFalse =>
      obtain ⟨k₁, k₂, rfl, rfl, passed, stopped⟩ := walk_chain kept.chained kept.positive searched
      exact ⟨k₁, k₂, rfl, fun e inside => of_decide_eq_true (passed e inside), above rfl stopped,
        rfl, rfl⟩
  obtain ⟨k₁, k₂, rfl, before, after, rfl, rfl⟩ := place
  have distinct : (zone.freeElements :: element :: (k₁ ++ k₂)).Nodup := by
    simp only [nodup_cons, mem_cons, not_or]
    exact ⟨⟨Ne.symm head, kept.head⟩, new, kept.sorted.imp Nat.ne_of_lt⟩
  refine ⟨k₁, k₂, rfl, ⟨rfl, rfl, rfl⟩, ⟨chain_insert kept.chained distinct, ?_, ?_, ?_, ?_⟩, ?_⟩
  · have sorted := pairwise_append.mp kept.sorted
    rw [pairwise_append, pairwise_cons]
    refine ⟨sorted.1, ⟨after, sorted.2.1⟩, ?_⟩
    intro e front e' back
    rcases mem_cons.mp back with rfl | back
    · exact before e front
    · exact sorted.2.2 e front e' back
  · intro e inside
    rcases mem_append.mp inside with front | back
    · exact kept.positive e (mem_append_left _ front)
    · rcases mem_cons.mp back with rfl | back
      · exact positive
      · exact kept.positive e (mem_append_right _ back)
  · exact .inr (mem_append_cons_self)
  · intro inside
    rcases mem_append.mp inside with front | back
    · exact kept.head (mem_append_left _ front)
    · rcases mem_cons.mp back with same | back
      · exact head same.symm
      · exact kept.head (mem_append_right _ back)
  · intro a off_head off_list off_own
    have off_last : a ≠ lastSlot zone.freeElements k₁ := by
      rcases lastSlot_mem zone.freeElements k₁ with same | inside
      · rw [same]
        exact off_head
      · intro same
        exact off_list (mem_append_left _ (same ▸ inside))
    exact (set_other off_last).trans (set_other off_own)

end Zones

section Collection

variable {mem mem' : Memory} {space space' : FreeSpace} {zone zone' : Zone}
  {grain limit size turns walkTurns e : ℕ} {es : List ℕ} {l l₁ l₂ : List Range}

/-- The ranges of elements of this size. -/
def elemRanges (size : ℕ) (es : List ℕ) : List Range := es.map fun e => ⟨e, size⟩

theorem cover_elemRanges_cons (x : ℕ) :
    cover (elemRanges size (e :: es)) x = cover [⟨e, size⟩] x + cover (elemRanges size es) x :=
  cover_cons _ _ _

theorem cover_elemRanges_append {es' : List ℕ} (x : ℕ) :
    cover (elemRanges size (es ++ es')) x =
      cover (elemRanges size es) x + cover (elemRanges size es') x := by
  unfold elemRanges
  rw [map_append, cover_append]

theorem cover_elemRanges_pos (inside : e ∈ es) (positive : 0 < size) :
    0 < cover (elemRanges size es) e :=
  cover_pos_iff.mpr ⟨⟨e, size⟩, mem_map_of_mem inside, Nat.le_refl _,
    Nat.lt_add_of_pos_right positive⟩

/-- The loop of `zone_collect`: all elements of `es` go back to the free space. -/
theorem zoneCollect_spec (measured : Measured space grain limit) (wide : limit = 4294967296)
    (kept : Kept mem space grain limit (l₁ ++ l₂)) (chained : Chained mem zone.freeElements es)
    (sorted : es.Pairwise (· < ·))
    (entry : ∀ e ∈ es, 0 < e ∧ Entry grain limit ⟨e, zone.elemSize⟩)
    (few : ∀ x, cover (l₁ ++ l₂) x + cover (elemRanges zone.elemSize es) x ≤ 1)
    (off : cover (elemRanges zone.elemSize es) space.entries = 0)
    (head : cover (l₁ ++ l₂) zone.freeElements = 0 ∧
      cover (elemRanges zone.elemSize es) zone.freeElements = 0 ∧
      zone.freeElements ≠ space.entries)
    (passed : ∀ r ∈ l₁, ∀ e ∈ es, r.stop ≤ e)
    (collected : zoneCollectLoop walkTurns turns space mem (slotAfter space.entries l₁) zone =
      some (mem', space', zone')) :
    ∃ l, Kept mem' space' grain limit l ∧ SameTable space space' ∧ SameZone zone zone' ∧
      ZoneKept mem' zone' [] ∧
      (∀ x, cover l x = cover (l₁ ++ l₂) x + cover (elemRanges zone.elemSize es) x) ∧
      ∀ a, a ≠ space.entries → a ≠ zone.freeElements → cover (l₁ ++ l₂) a = 0 →
        cover (elemRanges zone.elemSize es) a = 0 → mem' a = mem a := by
  induction turns generalizing space mem zone l₁ l₂ es with
  | zero => cases collected
  | succ turns ih =>
    rw [zoneCollectLoop] at collected
    cases es with
    | nil =>
      have null : mem zone.freeElements = 0 := chained
      rw [if_pos null] at collected
      cases collected
      exact ⟨_, kept, .refl, ⟨rfl, rfl, rfl⟩, ⟨null, List.Pairwise.nil,
        fun e inside => absurd inside not_mem_nil, .inl rfl, not_mem_nil⟩,
        fun x => rfl, fun a _ _ _ _ => rfl⟩
    | cons e es =>
      have first : mem zone.freeElements = e := chained.1
      obtain ⟨positive, own⟩ := entry e mem_cons_self
      have later := pairwise_cons.mp sorted
      have some_size : 0 < zone.elemSize := own.fits.1
      simp only [cover_elemRanges_cons] at few off head ⊢
      rw [first] at collected
      dsimp only at collected
      rw [if_neg (Nat.ne_of_gt positive)] at collected
      split at collected
      · cases collected
      rename_i last₁ mem₁ space₁ collect
      have outside : ¬ Range.Has ⟨e, zone.elemSize⟩ space.entries := by
        intro has
        rw [cover_single, if_pos has] at off
        omega
      have element : Element space.entries (l₁ ++ l₂) grain limit ⟨e, zone.elemSize⟩ := by
        refine ⟨own, positive, ?_, outside⟩
        intro r inside
        have big := kept.placed.big r inside
        apply Range.before_or_after (by omega) some_size
        rintro x ⟨here, there⟩
        have few := few x
        have covered : 0 < cover (l₁ ++ l₂) x := cover_pos_iff.mpr ⟨r, inside, here⟩
        rw [cover_single, if_pos there] at few
        omega
      obtain ⟨k₁, k₂, rfl, done⟩ := collect_spec measured wide kept element
        (fun r inside => passed r inside e mem_cons_self) collect
      have same := done.same
      have covers := done.covers
      -- The words at the elements that are left are not touched.
      have untouched : ∀ a, a ≠ space.entries → cover (l₁ ++ l₂) a = 0 →
          cover [⟨e, zone.elemSize⟩] a = 0 → mem₁ a = mem a := by
        intro a off_slot out_list out_elem
        apply done.frame a off_slot
        rw [cover_append]
        omega
      have off_elements : ∀ e' ∈ es, e' ≠ space.entries ∧ cover (l₁ ++ l₂) e' = 0 ∧
          cover [⟨e, zone.elemSize⟩] e' = 0 ∧ e' ≠ zone.freeElements := by
        intro e' inside
        have covered := cover_elemRanges_pos inside some_size
        have few := few e'
        refine ⟨?_, by omega, by omega, ?_⟩
        · rintro rfl
          omega
        · rintro rfl
          omega
      have chained' : Chained (mem₁.set zone.freeElements (mem e)) zone.freeElements es := by
        apply chained.2.move (set_self ..)
        intro e' inside
        obtain ⟨off_slot, out_list, out_elem, off_head⟩ := off_elements e' inside
        exact (set_other off_head).trans (untouched e' off_slot out_list out_elem)
      have kept' : Kept (mem₁.set zone.freeElements (mem e)) space₁ grain limit (k₁ ++ k₂) := by
        have covers_head := covers zone.freeElements
        apply done.kept.congr
        · rw [same.entries]
          exact set_other (Ne.symm head.2.2)
        intro a covered
        apply set_other
        rintro rfl
        omega
      rw [← same.entries] at collected
      obtain ⟨l, kept_l, same_l, same_zone, zone_kept, covers_l, frame⟩ :=
        @ih _ _ { zone with curSize := sub32 zone.curSize zone.elemSize } _ _ _
          (same.measured measured) kept' chained' later.2
          (fun e' inside => entry e' (mem_cons_of_mem _ inside))
          (by
            intro x
            have few := few x
            have covers := covers x
            dsimp only
            omega)
          (by
            rw [same.entries]
            dsimp only
            omega)
          (by
            have covers := covers zone.freeElements
            rw [same.entries]
            refine ⟨?_, ?_, head.2.2⟩
            · dsimp only
              omega
            · dsimp only
              omega)
          (by
            intro r inside e' inside'
            exact Nat.le_trans (done.passed r inside) (Nat.le_of_lt (later.1 e' inside')))
          collected
      refine ⟨l, kept_l, same.trans same_l, ⟨same_zone.freeElements, same_zone.elemSize,
        same_zone.freeSpace⟩, zone_kept, ?_, ?_⟩
      · intro x
        have covers := covers x
        have covers_l := covers_l x
        dsimp only at covers_l
        omega
      · intro a off_slot off_head out_list out_elems
        have covers := covers a
        rw [frame a (same.entries ▸ off_slot) off_head (by omega) (by dsimp only; omega)]
        rw [set_other off_head]
        exact untouched a off_slot out_list (by omega)

end Collection

end Darwin.Kern.Zalloc
