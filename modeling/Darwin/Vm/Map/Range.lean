import Darwin.Vm.Map.Lookup

/-!
# The operations on a range

`vm_map_delete`, `vm_map_remove`, `vm_map_protect`, `vm_map_inherit` and `vm_map_reallocate` keep the
invariant, leave the addresses outside of their range alone, and do to the addresses inside of it
what they are for.  All of them cut the list in front of the range and then run a loop over it.
-/

namespace Darwin.Vm.Map

open List Darwin.Lib

variable {O : Type*} {start stop a : ℕ} {map : VmMap O} {cut : Cut O}

/-! ## The addresses on both sides of the cut -/

variable (at_ : CutAt map start cut)

include at_

theorem CutAt.view_before (low : a < start) :
    viewList cut.before a = map.view a := by
  rw [← at_.view, viewList_append, viewList_of_lt_start fun e mem =>
    low.trans_le (at_.later e mem), Option.or_none]

theorem CutAt.before_none (high : start ≤ a) :
    viewList cut.before a = none :=
  viewList_of_stop_le fun e mem => (at_.earlier e mem).trans high

theorem CutAt.view_rest (high : start ≤ a) :
    viewList cut.rest a = map.view a := by
  rw [← at_.view, viewList_append, at_.before_none high, Option.none_or]

theorem CutAt.rest_none (low : a < start) :
    entryAt cut.rest a = none :=
  covering_of_lt_start fun e mem => low.trans_le (at_.later e mem)

omit at_

theorem CutAt.segments (at_ : CutAt map start cut) :
    Segments Entry.start Entry.stop start cut.rest map.maxOffset :=
  (segments_append.mp at_.inv.segments).2.after at_.later

/-- The hint is the entry in front of the range, where the range was found, or that of the lookup. -/
theorem CutAt.savedHint (at_ : CutAt map start cut) :
    Denotes (cut.before ++ cut.rest) (if cut.found then lastId cut.before else cut.hint) := by
  split_ifs with found
  · exact denotes_lastId cut.before cut.rest
  · exact at_.hint

/-! ## Deletion -/

/-- An entry that a pointer denotes and that starts before the range is in front of the cut. -/
theorem CutAt.denotes_before (at_ : CutAt map start cut) {pointer : Option ℕ}
    (denotes : Denotes (cut.before ++ cut.rest) pointer)
    (low : VmMap.startOf { map with counts := cut.counts, entries := cut.before ++ cut.rest } pointer <
      start) : Denotes cut.before pointer := by
  rintro id rfl
  obtain ⟨e, mem, rfl⟩ := mem_map.mp (denotes id rfl)
  rw [startOf_eq { map with counts := cut.counts, entries := cut.before ++ cut.rest }
    at_.inv.distinct mem] at low
  rcases mem_append.mp mem with mem | mem
  · exact mem_map_of_mem mem
  · exact absurd (at_.later e mem) (by omega)

/-- `vm_map_delete` unmaps the range. -/
theorem VmMap.Inv.delete (inv : map.Inv) (start stop : ℕ) :
    (map.vmMapDelete start stop).2.Inv ∧ (map.vmMapDelete start stop).1 = .success ∧
      ∀ a, (map.vmMapDelete start stop).2.view a =
        if start ≤ a ∧ a < stop then none else map.view a := by
  have at_ := inv.clipStart start
  have denotes {pointer : Option ℕ} {l : List (Entry O)}
      (before : Denotes (map.clipStart start).before pointer) :
      Denotes ((map.clipStart start).before ++ l) pointer :=
    before.mono (by rw [map_append]; exact subset_append_left _ _)
  refine ⟨⟨deleteLoop_inv at_.inv, ?_, ?_, inv.main⟩, rfl, fun a => ?_⟩
  · show Denotes (_ ++ _) (if (map.clipStart start).found then _ else _)
    split_ifs with found
    · exact denotes_lastId _ _
    · rw [at_.missing (by simpa using found)]
      exact denotes_lastId _ _
  · show Denotes (_ ++ _) (if _ then _ else _)
    split_ifs with within
    · exact denotes_lastId _ _
    · exact denotes (at_.denotes_before (inv.firstFree.mono at_.ids) (by omega))
  · show viewList ((map.clipStart start).before ++ _) a = _
    rw [viewList_append, deleteLoop_view at_.segments]
    by_cases low : a < start
    · rw [if_neg (show ¬ (start ≤ a ∧ a < stop) by omega), at_.view_before low, viewList,
        at_.rest_none low]
      simp
    rw [at_.before_none (by omega), Option.none_or, at_.view_rest (by omega)]
    by_cases high : a < stop
    · rw [if_pos high, if_pos (by omega)]
    · rw [if_neg high, if_neg (by omega)]

/-! ## Changes -/

theorem mapping_clipFront {e : Entry O} (high : start ≤ a) :
    (e.clipFront start).mapping a = e.mapping a := by
  rw [Entry.clipFront]
  split_ifs with clips
  · exact mapping_back clips.le high
  · rfl

variable {change : Entry O → Entry O}

theorem withList_ids (inPlace : InPlace change) :
    (cut.before ++ cut.rest).map Entry.id ⊆
      (cut.before ++ (changeLoop change stop cut.counts cut.rest).2).map Entry.id := by
  rw [map_append, map_append]
  exact append_subset.mpr ⟨subset_append_left _ _,
    List.Subset.trans (changeLoop_ids inPlace) (subset_append_right _ _)⟩

variable (inv : map.Inv) (inPlace : InPlace change)

include inv inPlace

/-- A loop that changes entries keeps the invariant, if the hint denotes an entry. -/
theorem VmMap.Inv.changed {hint : Option ℕ}
    (denotes : Denotes ((map.clipStart start).before ++ (map.clipStart start).rest) hint) :
    (map.withList hint (map.clipStart start).before (changeLoop change stop
      (map.clipStart start).counts (map.clipStart start).rest)).Inv where
  list := changeLoop_inv inPlace (inv.clipStart start).inv
  hint := denotes.mono (withList_ids inPlace)
  firstFree := (inv.firstFree.mono (inv.clipStart start).ids).mono (withList_ids inPlace)
  main := inv.main

/-- A loop that changes entries changes the addresses of the range. -/
theorem VmMap.Inv.changed_view (hint : Option ℕ) (start stop a : ℕ) :
    (map.withList hint (map.clipStart start).before (changeLoop change stop
      (map.clipStart start).counts (map.clipStart start).rest)).view a =
      if start ≤ a ∧ a < stop then
        (entryAt map.entries a).map fun e => (change (e.clipFront start)).mapping a
      else map.view a := by
  have at_ := inv.clipStart start
  show viewList ((map.clipStart start).before ++ _) a = _
  rw [viewList_append, changeLoop_view inPlace at_.segments]
  by_cases low : a < start
  · rw [if_neg (show ¬ (start ≤ a ∧ a < stop) by omega), at_.view_before low, viewList,
      at_.rest_none low]
    simp
  rw [at_.before_none (by omega), Option.none_or, at_.view_rest (by omega), at_.entry a (by omega),
    Option.map_map]
  by_cases high : a < stop
  · rw [if_pos high, if_pos (by omega)]
    rfl
  · rw [if_neg high, if_neg (by omega)]

/-- A change that acts on what addresses are mapped to. -/
theorem VmMap.Inv.changed_mapping (effect : Mapping O → Mapping O)
    (acts : ∀ e a, (change e).mapping a = effect (e.mapping a)) (hint : Option ℕ)
    (start stop a : ℕ) :
    (map.withList hint (map.clipStart start).before (changeLoop change stop
      (map.clipStart start).counts (map.clipStart start).rest)).view a =
      if start ≤ a ∧ a < stop then (map.view a).map effect else map.view a := by
  rw [inv.changed_view inPlace]
  split_ifs with inRange
  · rw [VmMap.view, viewList, Option.map_map]
    refine congrArg (fun f => (entryAt map.entries a).map f) (funext fun e => ?_)
    rw [acts, mapping_clipFront inRange.1]
    rfl
  · rfl

omit inv inPlace

/-- The map whose list is only cut. -/
theorem VmMap.Inv.clipped (inv : map.Inv) (start : ℕ) :
    (map.withList (map.clipStart start).hint (map.clipStart start).before
      ((map.clipStart start).counts, (map.clipStart start).rest)).Inv where
  list := (inv.clipStart start).inv
  hint := (inv.clipStart start).hint
  firstFree := inv.firstFree.mono (inv.clipStart start).ids
  main := inv.main

/-! ## Protection -/

theorem inPlace_protect (newProt : BitVec 32) (setMax : Bool) :
    InPlace (Entry.protect (O := O) newProt setMax) := by
  cases setMax <;> exact ⟨fun _ => rfl, fun _ => rfl, fun _ => rfl, fun _ plain => plain,
    fun _ _ _ => rfl⟩

/-- What `vm_map_protect` does to what an address is mapped to. -/
def Mapping.protect (newProt : BitVec 32) (setMax : Bool) (mapping : Mapping O) : Mapping O :=
  if setMax then
    { mapping with maxProtection := newProt, protection := newProt &&& mapping.protection }
  else { mapping with protection := newProt }

/-- The new protection is allowed on every mapped address of the range. -/
def VmMap.Allows (map : VmMap O) (newProt : BitVec 32) (start stop : ℕ) : Prop :=
  ∀ a mapping, start ≤ a → a < stop → map.view a = some mapping →
    newProt &&& mapping.maxProtection = newProt

theorem checkProtection_eq (newProt : BitVec 32) (stop : ℕ) {lo hi : ℕ} {rest : List (Entry O)}
    (segments : Segments Entry.start Entry.stop lo rest hi)
    (plain : ∀ e ∈ rest, e.isSubMap = false) :
    (checkProtection newProt stop rest = .success ∧
      ∀ e ∈ rest, e.start < stop → newProt &&& e.maxProtection = newProt) ∨
    (checkProtection newProt stop rest = .protectionFailure ∧
      ∃ e ∈ rest, e.start < stop ∧ newProt &&& e.maxProtection ≠ newProt) := by
  induction rest generalizing lo with
  | nil => exact .inl ⟨rfl, fun e mem => nomatch mem⟩
  | cons e rest ih =>
    obtain ⟨-, order, -, later⟩ := segments
    rw [checkProtection, plain e mem_cons_self]
    by_cases inRange : e.start < stop
    · by_cases allowed : newProt &&& e.maxProtection = newProt
      · simp only [inRange, if_true, Bool.false_eq_true, if_false, allowed, bne_self_eq_false]
        rcases ih later (fun d mem => plain d (mem_cons_of_mem _ mem)) with
          ⟨success, all⟩ | ⟨failure, d, mem, low, refused⟩
        · refine .inl ⟨success, fun d mem low => ?_⟩
          rcases mem_cons.mp mem with rfl | mem
          · exact allowed
          · exact all d mem low
        · exact .inr ⟨failure, d, mem_cons_of_mem _ mem, low, refused⟩
      · refine .inr ⟨?_, e, mem_cons_self, inRange, allowed⟩
        simp [inRange, allowed]
    · refine .inl ⟨by simp [inRange], fun d mem low => ?_⟩
      rcases mem_cons.mp mem with rfl | mem
      · exact absurd low inRange
      · have := (later.bounds mem).1
        omega

/-- The entries in the range are what its addresses are mapped by. -/
theorem VmMap.Inv.allows (inv : map.Inv) {newProt : BitVec 32} :
    map.Allows newProt start stop ↔ ∀ e ∈ (map.clipStart start).rest, e.start < stop →
        newProt &&& e.maxProtection = newProt := by
  have at_ := inv.clipStart start
  constructor
  · intro allows e mem low
    have high := at_.later e mem
    obtain ⟨l₁, l₂, eq⟩ := append_of_mem mem
    have order := (at_.segments.bounds mem).2.1
    have segments := at_.segments
    rw [eq] at segments
    obtain ⟨first, from_, -⟩ := segments_append.mp segments
    have view : map.view e.start = some (e.mapping e.start) := by
      rw [← at_.view_rest high, eq, viewList_append, viewList_of_stop_le, Option.none_or,
        viewList_cons_of_inside le_rfl order]
      intro d mem
      exact (first.stop_le_lastStop mem).trans from_
    exact allows e.start _ high low view
  · intro entries a mapping low high view
    rw [← at_.view_rest low, viewList, Option.map_eq_some_iff] at view
    obtain ⟨e, found, rfl⟩ := view
    obtain ⟨mem, covers, -⟩ := covering_some found
    exact entries e mem (by omega)

/-- `vm_map_protect` changes the protection of the range if that is allowed, and nothing
otherwise. -/
theorem VmMap.Inv.protect (inv : map.Inv) (start stop : ℕ) (newProt : BitVec 32) (setMax : Bool) :
    (map.vmMapProtect start stop newProt setMax).2.Inv ∧
      (map.Allows newProt (map.rangeCheck start stop).1 (map.rangeCheck start stop).2 →
        (map.vmMapProtect start stop newProt setMax).1 = .success ∧
        ∀ a, (map.vmMapProtect start stop newProt setMax).2.view a =
          if (map.rangeCheck start stop).1 ≤ a ∧ a < (map.rangeCheck start stop).2 then
            (map.view a).map (Mapping.protect newProt setMax) else map.view a) ∧
      (¬ map.Allows newProt (map.rangeCheck start stop).1 (map.rangeCheck start stop).2 →
        (map.vmMapProtect start stop newProt setMax).1 = .protectionFailure ∧
        ∀ a, (map.vmMapProtect start stop newProt setMax).2.view a = map.view a) := by
  have at_ := inv.clipStart (map.rangeCheck start stop).1
  have plain := fun e mem => at_.inv.noSubMap e (mem_append_right _ mem)
  rw [inv.allows]
  rcases checkProtection_eq newProt (map.rangeCheck start stop).2 at_.segments plain with
    ⟨success, all⟩ | ⟨failure, e, mem, low, refused⟩
  · have eq : map.vmMapProtect start stop newProt setMax =
        (.success, map.withList (map.clipStart (map.rangeCheck start stop).1).hint
          (map.clipStart (map.rangeCheck start stop).1).before
          (changeLoop (Entry.protect newProt setMax) (map.rangeCheck start stop).2
            (map.clipStart (map.rangeCheck start stop).1).counts
            (map.clipStart (map.rangeCheck start stop).1).rest)) := by
      rw [VmMap.vmMapProtect]
      simp only [success]
    rw [eq]
    refine ⟨inv.changed (inPlace_protect newProt setMax) at_.hint, fun _ => ⟨rfl, fun a => ?_⟩,
      fun refused => absurd all refused⟩
    refine inv.changed_mapping (inPlace_protect newProt setMax) _ (fun e a => ?_) _ _ _ a
    cases setMax <;> rfl
  · have eq : map.vmMapProtect start stop newProt setMax =
        (.protectionFailure, map.withList (map.clipStart (map.rangeCheck start stop).1).hint
          (map.clipStart (map.rangeCheck start stop).1).before
          ((map.clipStart (map.rangeCheck start stop).1).counts,
            (map.clipStart (map.rangeCheck start stop).1).rest)) := by
      rw [VmMap.vmMapProtect]
      simp only [failure]
    rw [eq]
    exact ⟨inv.clipped _, fun all => absurd (all e mem low) refused,
      fun _ => ⟨rfl, fun a => at_.view a⟩⟩

/-! ## Inheritance -/

theorem inPlace_inherit (newInheritance : BitVec 32) :
    InPlace fun e : Entry O => { e with inheritance := newInheritance } :=
  ⟨fun _ => rfl, fun _ => rfl, fun _ => rfl, fun _ plain => plain, fun _ _ _ => rfl⟩

/-- `vm_map_inherit` changes the inheritance of the range, for one of the three values there are. -/
theorem VmMap.Inv.inherit (inv : map.Inv) (start stop : ℕ) (newInheritance : BitVec 32) :
    (map.vmMapInherit start stop newInheritance).2.Inv ∧ (newInheritance.toNat ≤ 2 →
        (map.vmMapInherit start stop newInheritance).1 = .success ∧
        ∀ a, (map.vmMapInherit start stop newInheritance).2.view a =
          if (map.rangeCheck start stop).1 ≤ a ∧ a < (map.rangeCheck start stop).2 then
            (map.view a).map fun mapping => { mapping with inheritance := newInheritance }
          else map.view a) ∧
      (2 < newInheritance.toNat →
        map.vmMapInherit start stop newInheritance = (.invalidArgument, map)) := by
  have at_ := inv.clipStart (map.rangeCheck start stop).1
  have valid : (newInheritance = vmInheritNone ∨ newInheritance = vmInheritCopy ∨
      newInheritance = vmInheritShare) ↔ newInheritance.toNat ≤ 2 := by
    simp only [vmInheritNone, vmInheritCopy, vmInheritShare, ← BitVec.toNat_inj]
    show _ = 2 ∨ _ = 1 ∨ _ = 0 ↔ _
    omega
  rw [VmMap.vmMapInherit]
  by_cases known : newInheritance.toNat ≤ 2
  · rw [if_pos (valid.mpr known)]
    refine ⟨inv.changed (inPlace_inherit newInheritance) at_.hint, fun _ => ⟨rfl, fun a => ?_⟩,
      fun unknown => absurd known (by omega)⟩
    exact inv.changed_mapping (inPlace_inherit newInheritance) _ (fun e a => rfl) _ _ _ a
  · rw [if_neg (fun is => known (valid.mp is))]
    exact ⟨inv, fun is => absurd is known, fun _ => rfl⟩

/-! ## Reallocation -/

theorem inPlace_reallocate (isMainMap : Bool) : InPlace (Entry.reallocate (O := O) isMainMap) := by
  cases isMainMap <;>
    exact ⟨fun _ => rfl, fun _ => rfl, fun _ => rfl, fun _ _ => rfl, fun _ _ _ => rfl⟩

/-- `vm_map_reallocate` replaces what the range is mapped to by fresh memory: each entry gets no
object, counts its offsets from the start of its part of the range, and has the default protection
as far as its maximum allows. -/
theorem VmMap.Inv.reallocate (inv : map.Inv) (start stop : ℕ) :
    (map.vmMapReallocate start stop).2.Inv ∧ (map.vmMapReallocate start stop).1 = .success ∧
      ∀ a, (map.vmMapReallocate start stop).2.view a =
        if (map.rangeCheck start stop).1 ≤ a ∧ a < (map.rangeCheck start stop).2 then
          (entryAt map.entries a).map fun e =>
            { object := none
              offset := BitVec.ofNat 32 (a - max e.start (map.rangeCheck start stop).1)
              protection := e.maxProtection &&& vmProtDefault
              maxProtection := e.maxProtection
              inheritance := e.inheritance }
        else map.view a := by
  have at_ := inv.clipStart (map.rangeCheck start stop).1
  refine ⟨inv.changed (inPlace_reallocate _) at_.savedHint, rfl, fun a => ?_⟩
  refine (inv.changed_view (inPlace_reallocate _) _ (map.rangeCheck start stop).1
    (map.rangeCheck start stop).2 a).trans ?_
  generalize map.rangeCheck start stop = range
  split_ifs with inRange
  · refine congrArg (fun f => (entryAt map.entries a).map f) (funext fun e => ?_)
    rw [inv.main, Entry.clipFront]
    split_ifs with clips
    · rw [max_eq_right clips.le]
      simp [Entry.reallocate, Entry.mapping, Entry.back]
    · rw [max_eq_left (by omega)]
      simp [Entry.reallocate, Entry.mapping]
  · rfl

end Darwin.Vm.Map
