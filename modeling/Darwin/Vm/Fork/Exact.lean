import Darwin.Vm.Fork.Run

/-!
# When `vm_map_fork` builds the child that the inheritance prescribes

Ranges, contents, aliasing and independence are right for every parent.  The size, the wiring and
the protections are not: the child is given the size of the parent, whatever is left out; an entry
that is shared keeps its wired count; a copy out of a sharing map may be made executable; and a
sharing map that is made for an entry has the size 0.

## Main results

* `vmMapFork_exact` - exactly when the fork is as prescribed
* `vmMapFork_unsized` - a sharing map of the size 0
-/

namespace Darwin.Vm.Map

open List Darwin.Lib Darwin.Vm.Object Option Entry

variable {P D : Type*}

/-! ## Stores -/

section Stores

variable {pager : P → ℕ → Option D} {zero : D} {heap : Heap P D} {S : Finset ℕ} {s d e : Entry ℕ}
  {a b : ℕ} {old new v : D}

/-- The object that a store writes to: a new one, which may shadow the object of the entry, or the
object of the entry. -/
theorem lookupWrite_cases (heap : Heap P D) (e : Entry ℕ) :
    (∃ x : VmObject ℕ P D, x.copy = none ∧ (∀ s, x.shadow = some s → e.object = some s) ∧
      (lookupWrite heap e).1 = heap.add x ∧ (lookupWrite heap e).2.object = some heap.next) ∨
    (e.needsCopy = false ∧ e.object.isSome ∧ lookupWrite heap e = (heap, e)) := by
  rw [lookupWrite]
  cases needsCopy : e.needsCopy with
  | true => exact .inl ⟨_, rfl, fun _ link => link, rfl, rfl⟩
  | false =>
    rw [if_neg Bool.false_ne_true]
    cases object : e.object with
    | none =>
      refine .inl ⟨vmObjectAllocate P D (e.stop - e.start), rfl, fun _ link => ?_, rfl, rfl⟩
      cases link
    | some o =>
      rw [if_neg (by simp)]
      exact .inr ⟨rfl, rfl, rfl⟩

theorem lookupWrite_place (heap : Heap P D) (e : Entry ℕ) :
    (lookupWrite heap e).2.id = e.id ∧ (lookupWrite heap e).2.start = e.start ∧
      (lookupWrite heap e).2.stop = e.stop ∧ (lookupWrite heap e).2.isAMap = e.isAMap := by
  rw [lookupWrite]
  split_ifs <;> exact ⟨rfl, rfl, rfl, rfl⟩

/-- A store is seen where it was made. -/
theorem storeEntry_holds (heap : Heap P D) (e : Entry ℕ) (a : ℕ) (old new : D) :
    (storeEntry pager heap e a old new).1.Holds pager zero
      (storeEntry pager heap e a old new).2.object
      ((storeEntry pager heap e a old new).2.pageOffset a) new := by
  have object : ∃ o, (lookupWrite heap e).2.object = some o := by
    rcases lookupWrite_cases heap e with ⟨x, -, -, -, object⟩ | ⟨-, object, same⟩
    · exact ⟨_, object⟩
    · rw [same]
      exact isSome_iff_exists.mp object
  obtain ⟨o, object⟩ := object
  rw [storeEntry]
  rw [object, getD_some]
  exact writePage_holds _ _ _ _ _

/-- A store to a new object is seen nowhere else. -/
theorem add_write_holds (wf : heap.Wf) {x : VmObject ℕ P D} (noCopy : x.copy = none)
    (shadow : ∀ s, x.shadow = some s → s ∈ heap.live) {target : Option ℕ}
    (live : ∀ o, target = some o → o ∈ heap.live) (offset offset' : ℕ) :
    ((heap.add x).writePage (hasPage pager) heap.next offset old new).Holds pager zero
      target offset' v ↔ heap.Holds pager zero target offset' v := by
  have grows : heap.Grows (hasPage pager) heap.live (heap.add x) :=
    Heap.add_grows wf noCopy shadow shadow
  refine ((heap.add_isolated wf noCopy shadow).write grows.wf (fun o same => ?_) offset new).trans
    (grows.holds live)
  exact ⟨grows.live (live o same), wf.ne_next (live o same)⟩

/-- Where a store makes a new object, or goes to an object that nothing refers to, it is seen
nowhere else. -/
theorem storeEntry_elsewhere (wf : heap.Wf) (live : ∀ o, e.object = some o → o ∈ heap.live)
    (alone : e.needsCopy = false → ∀ o, e.object = some o → heap.Isolated o) {target : Option ℕ}
    (other : ∀ o, target = some o → o ∈ heap.live ∧ (e.needsCopy = false → e.object ≠ some o))
    (offset : ℕ) :
    (storeEntry pager heap e a old new).1.Holds pager zero target offset v ↔
      heap.Holds pager zero target offset v := by
  rw [storeEntry]
  rcases lookupWrite_cases heap e with ⟨x, noCopy, shadow, added, object⟩ | ⟨unmarked, object, same⟩
  · rw [added, object, getD_some]
    exact add_write_holds wf noCopy (fun s link => live s (shadow s link))
      (fun o same => (other o same).1) _ _
  obtain ⟨o, object⟩ := isSome_iff_exists.mp object
  rw [same, object, getD_some]
  refine (alone unmarked o object).write wf (fun t same => ⟨(other t same).1, ?_⟩) _ _
  rintro rfl
  exact (other t same).2 unmarked object

/-- Twins hold the same. -/
theorem Twin.holds (twin : Twin heap S s a d b) (wf : heap.Wf) :
    heap.Holds pager zero d.object (d.pageOffset b) v ↔
      heap.Holds pager zero s.object (s.pageOffset a) v := by
  cases twin with
  | backed backs _ _ same =>
    refine (backs.holds wf (pageOffset_lt d b)).trans ?_
    cases object : s.object with
    | none => exact Iff.rfl
    | some o => rw [same (by rw [object]; exact some_ne_none o)]
  | @own o n p source live object isolated _ here there =>
    rw [source, object]
    refine (Heap.holds_of_hit (.page p) ?_).trans (Heap.holds_of_hit (.page p) ?_).symm
    · rw [VmObject.hit, here]
    · rw [VmObject.hit, there]

variable (twin : Twin heap S s a d b) (wf : heap.Wf)
  (inS : ∀ o, s.object = some o → o ∈ S ∧ o ∈ heap.live)

include twin wf inS

/-- A store at the parent's side is not seen at the child's. -/
theorem Twin.store_source (holds : heap.Holds pager zero s.object (s.pageOffset a) old) :
    (storeEntry pager heap s a old new).1.Holds pager zero d.object (d.pageOffset b) v ↔
      heap.Holds pager zero d.object (d.pageOffset b) v := by
  have live : ∀ o, s.object = some o → o ∈ heap.live := fun o same => (inS o same).2
  rw [storeEntry]
  rcases lookupWrite_cases heap s with ⟨x, noCopy, shadow, added, object⟩ | ⟨unmarked, object, same⟩
  · rw [added, object, getD_some]
    refine add_write_holds wf noCopy (fun s link => live s (shadow s link)) (fun o same => ?_) _ _
    cases twin with
    | backed backs => exact backs.live wf same
    | own _ _ object isolated =>
      cases object.symm.trans same
      exact isolated.live
  · -- the object is written in place, so the child has a copy object or its own page
    obtain ⟨o, object⟩ := isSome_iff_exists.mp object
    rw [same, object, getD_some]
    cases twin with
    | @backed needsCopy backs marked _ sameOffset =>
      rw [sameOffset (by rw [object]; exact some_ne_none o)]
      rw [object] at holds backs
      generalize d.object = copy at backs
      cases backs with
      | shared => exact absurd (marked rfl) (by rw [unmarked]; exact Bool.false_ne_true)
      | copied live clean => exact clean.write wf live (pageOffset_lt s a) holds new
    | @own o' n p source _ object' isolated outside here _ =>
      rw [object']
      obtain ⟨mem, live⟩ := inS o object
      refine isolated.kept live (fun same => outside (same ▸ mem)) (.page p) ?_ _ _
      rw [VmObject.hit, here]

/-- A store at the child's side is not seen at the parent's. -/
theorem Twin.store_copy :
    (storeEntry pager heap d b old new).1.Holds pager zero s.object (s.pageOffset a) v ↔
      heap.Holds pager zero s.object (s.pageOffset a) v := by
  cases twin with
  | backed backs _ shadowed _ =>
    refine storeEntry_elsewhere wf (fun o same => backs.live wf same) (fun unmarked => ?_)
      (fun o same => ⟨(inS o same).2, fun unmarked => ?_⟩) _
    · exact absurd (shadowed.symm.trans unmarked) (by decide)
    · exact absurd (shadowed.symm.trans unmarked) (by decide)
  | @own o n p source _ object isolated outside _ _ =>
    refine storeEntry_elsewhere wf (fun o same => ?_) (fun _ o same => ?_)
      (fun o same => ⟨(inS o same).2, fun _ same' => ?_⟩) _
    · cases object.symm.trans same
      exact isolated.live
    · cases object.symm.trans same
      exact isolated
    · cases object.symm.trans same'
      exact outside (inS _ same).1

end Stores

/-! ## What a fork is to do -/

section Fork

variable {page : ℕ} {pager : P → ℕ → Option D} {zero : D} {w : World P D} {old : VmMap ℕ}

/-- A parent and the world around it, before a fork. -/
structure ForkWf (page : ℕ) (w : World P D) (old : VmMap ℕ) : Prop where
  inv : old.Inv
  heap : w.heap.Wf
  shares : ∀ m < w.nextMap, (w.shareMap m).ShareInv
  entries : ∀ m < w.nextMap, ∀ s ∈ (w.shareMap m).entries, s.Good page w.heap w.heap.live
  ready : ∀ e ∈ old.entries, w.Ready page w.heap.live e

/-- What the inheritance values prescribe: the ranges, protections and contents of the child, which
has no wired entry and the size of its ranges; that the ranges that are shared are aliased and those
that are copied independent; that the parent is as before; and that the new sharing maps are well
formed. -/
structure Prescribed (page : ℕ) (pager : P → ℕ → Option D) (zero : D) (w : World P D)
    (old : VmMap ℕ) (r : Forked P D) : Prop where
  ranges : ∀ a, (entryAt r.child.entries a).isSome ↔ ∃ e, entryAt old.entries a = some e ∧
    (e.inheritance = vmInheritShare ∨ e.inheritance = vmInheritCopy)
  protection : ∀ a e c, entryAt old.entries a = some e → entryAt r.child.entries a = some c →
    c.protection = e.protection ∧ c.maxProtection = e.maxProtection
  contents : ∀ a, page ∣ a → (entryAt r.child.entries a).isSome → ∀ d,
    r.child.Holds pager zero r.world a d ↔ old.Holds pager zero w a d
  unwired : ∀ c ∈ r.child.entries, c.wiredCount = 0
  size : r.child.counts.size = rangeSum r.child.entries
  aliased : ∀ a e, entryAt old.entries a = some e → e.inheritance = vmInheritShare → ∀ d w' map',
    (Store pager zero r.world r.parent a d w' map' → r.child.Holds pager zero w' a d) ∧
    (Store pager zero r.world r.child a d w' map' → r.parent.Holds pager zero w' a d)
  independent : ∀ a e, page ∣ a → entryAt old.entries a = some e → e.inheritance = vmInheritCopy →
    ∀ d w' map', (Store pager zero r.world r.parent a d w' map' →
        ∀ v, r.child.Holds pager zero w' a v ↔ r.child.Holds pager zero r.world a v) ∧
      (Store pager zero r.world r.child a d w' map' →
        ∀ v, r.parent.Holds pager zero w' a v ↔ r.parent.Holds pager zero r.world a v)
  parentContents : ∀ a d, r.parent.Holds pager zero r.world a d ↔ old.Holds pager zero w a d
  parentWiring : ∀ a, (entryAt r.parent.entries a).map wiredCount =
    (entryAt old.entries a).map wiredCount
  parentSize : r.parent.counts.size = old.counts.size
  sharing : ∀ m, w.nextMap ≤ m → m < r.world.nextMap → (r.world.shareMap m).ShareInv

/-- Every range is inherited, what is shared has a sharing map and is not wired, and no copy out of
a sharing map is made executable. -/
structure ForkCondition (w : World P D) (old : VmMap ℕ) : Prop where
  inherited : ∀ e ∈ old.entries, e.inheritance = vmInheritShare ∨ e.inheritance = vmInheritCopy
  shared : ∀ e ∈ old.entries, e.inheritance = vmInheritShare → e.isAMap = true ∧ e.wiredCount = 0
  execute : ∀ e ∈ old.entries, e.inheritance = vmInheritCopy → e.isAMap = true → ∀ a s b,
    e.start ≤ a → a < e.stop → e.locate w a = some (s, b) → s.wiredCount = 0 →
      s.protection &&& vmProtExecute ≠ 0 → e.maxProtection &&& vmProtExecute ≠ 0 →
        e.protection &&& vmProtExecute ≠ 0

/-! ## Protections and sizes -/

theorem or_execute (protection maxProtection : BitVec 32) :
    protection ||| (vmProtExecute &&& maxProtection) = protection ↔
      (maxProtection &&& vmProtExecute ≠ 0 → protection &&& vmProtExecute ≠ 0) := by
  have execute : vmProtExecute = BitVec.twoPow 32 2 := by decide
  have bit (x : BitVec 32) : x &&& vmProtExecute ≠ 0 ↔ x.getLsbD 2 = true := by
    rw [execute, BitVec.and_twoPow]
    cases x.getLsbD 2 <;> decide
  rw [bit, bit, BitVec.and_comm, execute, BitVec.and_twoPow]
  cases maximal : maxProtection.getLsbD 2 with
  | false =>
    rw [if_neg Bool.false_ne_true]
    exact ⟨fun _ impossible => absurd impossible Bool.false_ne_true, fun _ => BitVec.or_zero⟩
  | true =>
    rw [if_pos rfl]
    constructor
    · intro same _
      have bits := congrArg (fun x : BitVec 32 => x.getLsbD 2) same
      simpa using bits.symm
    intro has
    refine BitVec.eq_of_getLsbD_eq fun i low => ?_
    rw [BitVec.getLsbD_or, BitVec.getLsbD_twoPow]
    by_cases here : 2 = i
    · subst here
      rw [has rfl, Bool.true_or]
    · simp [here]

theorem granted_clone (s e : Entry ℕ) :
    granted s e.clone = e.protection ↔ (s.wiredCount = 0 → s.protection &&& vmProtExecute ≠ 0 →
        e.maxProtection &&& vmProtExecute ≠ 0 → e.protection &&& vmProtExecute ≠ 0) := by
  rw [granted]
  split_ifs with both
  · rw [show e.clone.protection = e.protection from rfl,
      show e.clone.maxProtection = e.maxProtection from rfl, or_execute]
    exact ⟨fun allowed _ _ => allowed, fun allowed => allowed both.1 both.2⟩
  · exact ⟨fun _ wired execute => absurd ⟨wired, execute⟩ both, fun _ => rfl⟩

variable {l : List (Entry ℕ)} {map map' : VmMap ℕ} {a b : ℕ} {s e : Entry ℕ} {w' : World P D}

/-- All bytes are inherited if every entry is. -/
theorem inherited_sum {lo hi : ℕ} (segments : Segments start stop lo l hi) :
    (l.map inherited).sum ≤ rangeSum l ∧ ((l.map inherited).sum = rangeSum l ↔ ∀ e ∈ l,
        e.inheritance = vmInheritShare ∨ e.inheritance = vmInheritCopy) := by
  induction l generalizing lo with
  | nil => exact ⟨le_rfl, fun _ => forall_mem_nil _, fun _ => rfl⟩
  | cons e l ih =>
    obtain ⟨-, order, -, rest⟩ := segments
    obtain ⟨le, equal⟩ := ih rest
    rw [map_cons, sum_cons, rangeSum_cons, forall_mem_cons, ← equal, inherited]
    split_ifs with inherited
    · exact ⟨by omega, fun same => ⟨inherited, by omega⟩, fun both => by rw [both.2]⟩
    · exact ⟨by omega, fun same => by omega, fun both => absurd both.1 inherited⟩

theorem VmMap.ShareInv.linked (inv : map.ShareInv) : map.Linked where
  list := by
    have list : ListInv map.minOffset map.maxOffset { map.counts with size := map.counts.size }
      map.entries := inv.list
    exact list.resize
  hint := inv.hint

/-- A map with an entry does not have the size 0. -/
theorem VmMap.ShareInv.size_ne_zero (inv : map.ShareInv)
    (covers : entryAt map.entries a = some s) : map.counts.size ≠ 0 := by
  have list : ListInv map.minOffset map.maxOffset map.counts map.entries := inv.list
  obtain ⟨mem, low, high⟩ := covering_some covers
  obtain ⟨l₁, l₂, eq⟩ := append_of_mem mem
  have nonneg : ∀ l : List (Entry ℕ), (∀ x ∈ l, x.start < x.stop) → 0 ≤ rangeSum l := by
    intro l order
    induction l with
    | nil => exact le_rfl
    | cons x l ih =>
      have := ih fun y inside => order y (mem_cons_of_mem x inside)
      have := order x mem_cons_self
      rw [rangeSum_cons]
      omega
  have order : ∀ x ∈ map.entries, x.start < x.stop := fun x inside =>
    (list.segments.bounds inside).2.1
  rw [eq] at order
  have first := nonneg l₁ fun x inside => order x (mem_append_left _ inside)
  have last := nonneg l₂ fun x inside =>
    order x (mem_append_right _ (mem_cons_of_mem s inside))
  rw [list.size, eq, rangeSum_append, rangeSum_cons]
  omega

/-! ## Stores to maps -/

theorem holds_iff (map : VmMap ℕ) {v : D}
    (covers : entryAt map.entries a = some e) (located : e.locate w a = some (s, b)) :
    map.Holds pager zero w a v ↔ w.heap.Holds pager zero s.object (s.pageOffset b) v := by
  constructor
  · rintro ⟨e', s', b', covers', located', holds⟩
    cases covers.symm.trans covers'
    cases located.symm.trans located'
    exact holds
  · exact fun holds => ⟨e, s, b, covers, located, holds⟩

theorem locate_plain (plain : e.isAMap = false) (w : World P D) (a : ℕ) :
    e.locate w a = some (e, a) := by
  rw [locate, plain, if_neg Bool.false_ne_true]

theorem locate_withId (isMap : e.isAMap = true) (id : ℕ) (w : World P D) (a : ℕ) :
    (e.withId id).locate w a = e.locate w a := by
  rw [locate, locate, if_pos isMap, if_pos
    (show (e.withId id).isAMap = true from isMap)]
  rfl

/-- What a store does to the objects. -/
theorem Store.heap {d : D}
    (store : Store pager zero w map a d w' map') (covers : entryAt map.entries a = some e) :
    ∃ s b found, e.locate w a = some (s, b) ∧
      w.heap.Holds pager zero s.object (s.pageOffset b) found ∧
      w'.heap = (storeEntry pager w.heap s b found d).1 ∧
      (e.isAMap = false → w'.shareMap = w.shareMap) := by
  cases store with
  | @plain e' found at_ plain holds =>
    cases covers.symm.trans at_
    exact ⟨e, a, found, locate_plain plain w a, holds, rfl, fun _ => rfl⟩
  | @shared e' s m found at_ isMap object share holds =>
    cases covers.symm.trans at_
    refine ⟨s, e.shareOffset a, found, ?_, holds, rfl, fun plain => ?_⟩
    · rw [locate, if_pos isMap, object, getD_some, share]
      rfl
    · exact absurd (isMap.symm.trans plain) (by decide)

/-- An entry is replaced where it was. -/
theorem entryAt_replace {s' : Entry ℕ}
    (distinct : (l.map Entry.id).Nodup) (covers : entryAt l a = some s) (same : s'.id = s.id)
    (start : s'.start = s.start) (stop : s'.stop = s.stop) :
    entryAt (l.map fun d => if d.id = s'.id then s' else d) a = some s' := by
  obtain ⟨mem, low, high⟩ := covering_some covers
  obtain ⟨l₁, l₂, rfl⟩ := append_of_mem mem
  have other : ∀ x ∈ l₁, x.id ≠ s.id := fun x inside => by
    simpa using notMem_of_nodup distinct x inside
  have front : l₁.map (fun d => if d.id = s'.id then s' else d) = l₁ := by
    conv_rhs => rw [← map_id l₁]
    refine map_congr_left fun x inside => ?_
    rw [same, if_neg (other x inside)]
    rfl
  rw [entryAt, covering_append] at covers
  rw [map_append, front, map_cons, if_pos same.symm, entryAt, covering_append]
  cases first : covering Entry.start Entry.stop l₁ a with
  | some x =>
    rw [first, some_or] at covers
    obtain rfl := some.inj covers
    exact absurd rfl (other x (covering_some first).1)
  | none =>
    rw [none_or]
    exact covering_cons_of_inside (e := s') (start.trans_le low) (high.trans_eq stop.symm) _

/-- A store through a sharing map is seen in every map that refers to it in the same way. -/
theorem Store.aliased {map₂ : VmMap ℕ} {c : Entry ℕ} {d : D}
    (store : Store pager zero w map a d w' map') (covers : entryAt map.entries a = some e)
    (isMap : e.isAMap = true) (linked : ∀ m, e.object = some m → (w.shareMap m).Linked)
    (covers₂ : entryAt map₂.entries a = some c)
    (same : ∀ w : World P D, c.locate w a = e.locate w a) :
    map₂.Holds pager zero w' a d := by
  cases store with
  | @plain e' found at_ plain _ =>
    cases covers.symm.trans at_
    exact absurd (isMap.symm.trans plain) (by decide)
  | @shared e' s m found at_ _ object share _ =>
    cases covers.symm.trans at_
    have place := lookupWrite_place w.heap s
    refine (holds_iff _ covers₂ (s := (storeEntry pager w.heap s (e.shareOffset a) found d).2)
      (b := e.shareOffset a) ?_).mpr (storeEntry_holds w.heap s (e.shareOffset a) found d)
    rw [same, locate, if_pos isMap, object, getD_some]
    dsimp only
    rw [Function.update_self]
    refine (congrArg (Option.map _) (entryAt_replace (linked m object).list.distinct share place.1
      place.2.1 place.2.2.1)).trans ?_
    rfl

/-! ## The parts of the prescription -/

theorem ForkWf.located (wf : ForkWf page w old) (mem : e ∈ old.entries)
    (located : e.locate w a = some (s, b)) : ∀ o, s.object = some o → o ∈ w.heap.live := by
  rw [locate] at located
  split_ifs at located with isMap
  · obtain ⟨m, object, below⟩ := (wf.ready e mem).old isMap
    rw [object] at located
    obtain ⟨s', covers, same⟩ := map_eq_some_iff.mp located
    obtain ⟨rfl, -⟩ := Prod.mk.inj same
    exact (wf.entries m below s' (covering_some covers).1).object
  · obtain ⟨rfl, -⟩ := Prod.mk.inj (some.inj located)
    exact ((wf.ready e mem).plain (Bool.eq_false_of_not_eq_true isMap)).object

theorem kept_wiring {l' : List (Entry ℕ)} (kept : List.Forall₂ Kept l l') (a : ℕ) :
    (entryAt l' a).map wiredCount = (entryAt l a).map wiredCount := by
  induction kept with
  | nil => rfl
  | @cons e e' l l' here _ ih =>
    by_cases inside : e.start ≤ a ∧ a < e.stop
    · have inside' : e'.start ≤ a ∧ a < e'.stop := by rw [here.start, here.stop]; exact inside
      rw [entryAt_cons_of_inside inside.1 inside.2, entryAt_cons_of_inside inside'.1 inside'.2,
        map_some, map_some, here.wired]
    · have inside' : ¬ (e'.start ≤ a ∧ a < e'.stop) := by rw [here.start, here.stop]; exact inside
      rw [entryAt, entryAt, covering_cons_of_outside inside, covering_cons_of_outside inside']
      exact ih

/-- The result of the fork, from that of its loop. -/
def Forking.result (loop : Forking P D) (old : VmMap ℕ) : Forked P D where
  world := loop.world
  child := { loop.child with counts := { loop.child.counts with size := old.counts.size } }
  parent := { old with entries := loop.parent }

/-- The run of the loop of a fork. -/
def Forking.Ran (page : ℕ) (pager : P → ℕ → Option D) (w : World P D) (old : VmMap ℕ)
    (loop : Forking P D) (added : List (Entry ℕ)) : Prop :=
  ForkRun page (hasPage pager) w.heap.live w (vmMapCreate ℕ old.minOffset old.maxOffset) old.entries
    loop added

section Parts

variable {loop : Forking P D} {added : List (Entry ℕ)} {a : ℕ} {e : Entry ℕ} {d v : D}

theorem Forking.Ran.child (run : loop.Ran page pager w old added) :
    (loop.result old).child.entries = added :=
  ForkRun.entries run

/-- An address of the parent. -/
theorem Forking.Ran.address (run : loop.Ran page pager w old added)
    (covers : entryAt old.entries a = some e) : e ∈ old.entries ∧ e.start ≤ a ∧ a < e.stop ∧
      ∃ e', entryAt loop.parent a = some e' ∧ e.Kept e' ∧
        (e'.isAMap = true → ∃ m, e'.object = some m ∧ m < loop.world.nextMap) ∧
        AddressForked page w.heap.live w loop.world e e' added a := by
  obtain ⟨mem, low, high⟩ := covering_some covers
  exact ⟨mem, low, high, run.addresses e mem a low high⟩

theorem ForkWf.covers (wf : ForkWf page w old) (mem : e ∈ old.entries) (low : e.start ≤ a)
    (high : a < e.stop) : entryAt old.entries a = some e :=
  entryAt_of_mem wf.inv.list.segments mem low high

variable (run : loop.Ran page pager w old added) (wf : ForkWf page w old)

include run wf

namespace Forking.Ran

theorem ranges :
    (entryAt added a).isSome ↔ ∃ e, entryAt old.entries a = some e ∧
      (e.inheritance = vmInheritShare ∨ e.inheritance = vmInheritCopy) := by
  constructor
  · intro some_
    obtain ⟨x, covers⟩ := isSome_iff_exists.mp some_
    obtain ⟨inside, low, high⟩ := covering_some covers
    obtain ⟨e, mem, start, stop, -⟩ := run.members x inside
    have there := wf.covers mem (start.trans low) (high.trans_le stop)
    obtain ⟨-, -, -, e', -, -, -, forked⟩ := run.address there
    refine ⟨e, there, ?_⟩
    by_contra neither
    obtain ⟨notShare, notCopy⟩ := not_or.mp neither
    rw [forked.none notShare notCopy] at covers
    cases covers
  · rintro ⟨e, covers, share | copy⟩
    · obtain ⟨-, -, -, e', -, -, -, forked⟩ := run.address covers
      obtain ⟨-, id, here⟩ := forked.share share
      rw [here]
      rfl
    · obtain ⟨-, -, -, e', -, -, -, forked⟩ := run.address covers
      obtain ⟨s, s', b, d', -, -, here, -⟩ := forked.copy copy
      rw [here]
      rfl

/-- Where the child has an address, it is shared or copied. -/
theorem inherits (covers : entryAt old.entries a = some e)
    (some_ : (entryAt added a).isSome) :
    e.inheritance = vmInheritShare ∨ e.inheritance = vmInheritCopy := by
  obtain ⟨e', covers', inherited⟩ := (run.ranges wf).mp some_
  cases covers.symm.trans covers'
  exact inherited

theorem protection :
    (∀ a e c, entryAt old.entries a = some e → entryAt added a = some c →
      c.protection = e.protection ∧ c.maxProtection = e.maxProtection) ↔
    ∀ e ∈ old.entries, e.inheritance = vmInheritCopy → e.isAMap = true → ∀ a s b,
      e.start ≤ a → a < e.stop → e.locate w a = some (s, b) → s.wiredCount = 0 →
        s.protection &&& vmProtExecute ≠ 0 → e.maxProtection &&& vmProtExecute ≠ 0 →
          e.protection &&& vmProtExecute ≠ 0 := by
  constructor
  · intro same e mem copy _ a s b low high located
    have covers := wf.covers mem low high
    obtain ⟨-, -, -, e', -, -, -, forked⟩ := run.address covers
    obtain ⟨s₁, s', b₁, d', located₁, -, piece, copied⟩ := forked.copy copy
    cases located.symm.trans located₁
    exact (granted_clone s e).mp (copied.protection.symm.trans (same a e d' covers piece).1)
  · intro execute a e c covers piece
    obtain ⟨mem, low, high, e', -, kept, -, forked⟩ := run.address covers
    rcases run.inherits wf covers (by rw [piece]; rfl) with share | copy
    · obtain ⟨-, id, here⟩ := forked.share share
      cases piece.symm.trans here
      exact ⟨kept.protection, kept.maxProtection⟩
    obtain ⟨s, s', b, d', located, -, here, copied⟩ := forked.copy copy
    cases piece.symm.trans here
    refine ⟨copied.protection.trans ((granted_clone s e).mpr ?_), copied.maxProtection⟩
    cases isMap : e.isAMap with
    | true => exact execute e mem copy isMap a s b low high located
    | false =>
      -- the entry itself is executable then
      rw [locate_plain isMap] at located
      cases located
      exact fun _ executable _ => executable

theorem parentContents :
    (loop.result old).parent.Holds pager zero loop.world a v ↔ old.Holds pager zero w a v := by
  cases covers : entryAt old.entries a with
  | none =>
    have covers' : entryAt loop.parent a = none := by
      have same := kept_wiring run.parent a
      rw [covers, map_none, map_eq_none_iff] at same
      exact same
    constructor
    · rintro ⟨e', s', b, here, -⟩
      exact absurd (covers'.symm.trans here) (by simp)
    · rintro ⟨e, s, b, here, -⟩
      exact absurd (covers.symm.trans here) (by simp)
  | some e =>
    obtain ⟨mem, low, high, e', covers', -, -, forked⟩ := run.address covers
    obtain ⟨s, b, located⟩ := (wf.ready e mem).located low high
    obtain ⟨s', located', follows⟩ := forked.parent s b located
    refine (holds_iff (loop.result old).parent covers' located').trans
      (Iff.trans ?_ (holds_iff _ covers located).symm)
    rw [follows.object, follows.offset]
    exact run.extends_.heap.holds (wf.located mem located)

/-- What the child's side of an address is: the parent's entry, or a twin of what is behind it. -/
theorem contents (aligned : page ∣ a) (some_ : (entryAt added a).isSome) :
    (loop.result old).child.Holds pager zero loop.world a v ↔ old.Holds pager zero w a v := by
  obtain ⟨e, covers, inherited⟩ := (run.ranges wf).mp some_
  obtain ⟨mem, low, high, e', covers', -, -, forked⟩ := run.address covers
  refine Iff.trans ?_ (run.parentContents wf)
  obtain ⟨s, b, located⟩ := (wf.ready e mem).located low high
  obtain ⟨s', located', -⟩ := forked.parent s b located
  have parent : (loop.result old).parent.Holds pager zero loop.world a v ↔ _ :=
    holds_iff _ covers' located'
  rcases inherited with share | copy
  · obtain ⟨isMap, id, here⟩ := forked.share share
    rw [← run.child] at here
    rw [← locate_withId isMap id] at located'
    exact (holds_iff _ here located').trans parent.symm
  · obtain ⟨s₁, s₂, b', d', -, located₂, here, copied⟩ := forked.copy copy
    cases located'.symm.trans located₂
    rw [← run.child] at here
    exact (holds_iff _ here (locate_plain copied.plain loop.world a)).trans
      (((copied.twin aligned).holds run.good.heap).trans parent.symm)

theorem unwired :
    (∀ c ∈ added, c.wiredCount = 0) ↔
      ∀ e ∈ old.entries, e.inheritance = vmInheritShare → e.wiredCount = 0 := by
  constructor
  · intro unwired e mem share
    have order := (wf.inv.list.segments.bounds mem).2.1
    obtain ⟨-, -, -, e', -, kept, -, forked⟩ := run.address (wf.covers mem le_rfl order)
    obtain ⟨-, id, here⟩ := forked.share share
    exact kept.wired.symm.trans (unwired (e'.withId id) (covering_some here).1)
  · intro unwired c inside
    obtain ⟨e, mem, -, -, wired⟩ := run.members c inside
    rw [wired]
    split_ifs with share
    · exact unwired e mem share
    · rfl

theorem size :
    old.counts.size = rangeSum added ↔ ∀ e ∈ old.entries,
      e.inheritance = vmInheritShare ∨ e.inheritance = vmInheritCopy := by
  have sum := ForkRun.sum run
  rw [wf.inv.list.size, sum, ← (inherited_sum wf.inv.list.segments).2]
  exact eq_comm

omit run wf

variable (run : loop.Ran page pager w old added)

include run

theorem sharing :
    (∀ m, w.nextMap ≤ m → m < loop.world.nextMap → (loop.world.shareMap m).ShareInv) ↔
      ∀ e ∈ old.entries, e.inheritance = vmInheritShare → e.isAMap = true := by
  constructor
  · intro sharing e mem share
    by_contra plain
    have more := run.creates.mpr ⟨e, mem, share, Bool.eq_false_of_not_eq_true plain⟩
    obtain ⟨size, a, s, covers⟩ := run.created w.nextMap le_rfl more
    exact (sharing w.nextMap le_rfl more).size_ne_zero covers size
  · intro shared m above below
    obtain ⟨e, mem, share, plain⟩ := run.creates.mp (above.trans_lt below)
    exact absurd ((shared e mem share).symm.trans plain) (by decide)

theorem aliased (covers : entryAt old.entries a = some e)
    (share : e.inheritance = vmInheritShare) {w' : World P D} {map' : VmMap ℕ} :
    (Store pager zero loop.world (loop.result old).parent a d w' map' →
      (loop.result old).child.Holds pager zero w' a d) ∧
    (Store pager zero loop.world (loop.result old).child a d w' map' →
      (loop.result old).parent.Holds pager zero w' a d) := by
  obtain ⟨-, -, -, e', covers', -, object, forked⟩ := run.address covers
  obtain ⟨isMap, id, here⟩ := forked.share share
  have linked : ∀ m, e'.object = some m → (loop.world.shareMap m).Linked := by
    intro m same
    obtain ⟨m', object, below⟩ := object isMap
    cases same.symm.trans object
    exact run.good.linked m below
  rw [← run.child] at here
  exact ⟨fun store => store.aliased covers' isMap linked here fun w => locate_withId isMap id w a,
    fun store => store.aliased here isMap linked covers' fun w => (locate_withId isMap id w a).symm⟩

theorem independent (wf : ForkWf page w old) (aligned : page ∣ a)
    (covers : entryAt old.entries a = some e) (copy : e.inheritance = vmInheritCopy)
    {w' : World P D} {map' : VmMap ℕ} :
    (Store pager zero loop.world (loop.result old).parent a d w' map' →
      ∀ v, (loop.result old).child.Holds pager zero w' a v ↔
        (loop.result old).child.Holds pager zero loop.world a v) ∧
    (Store pager zero loop.world (loop.result old).child a d w' map' →
      ∀ v, (loop.result old).parent.Holds pager zero w' a v ↔
        (loop.result old).parent.Holds pager zero loop.world a v) := by
  obtain ⟨mem, low, high, e', covers', -, -, forked⟩ := run.address covers
  obtain ⟨s, s', b, d', located, located', here, copied⟩ := forked.copy copy
  rw [← run.child] at here
  have twin := copied.twin aligned
  have inside : ∀ o, s'.object = some o → o ∈ w.heap.live ∧ o ∈ loop.world.heap.live := by
    intro o object
    have old := wf.located mem located o (copied.follows.object ▸ object)
    exact ⟨old, run.good.inside old⟩
  have childHolds (w' : World P D) (v : D) : (loop.result old).child.Holds pager zero w' a v ↔ _ :=
    holds_iff _ here (locate_plain copied.plain w' a)
  constructor
  · intro store v
    obtain ⟨s₁, b₁, found, located₁, holds, heap, -⟩ := store.heap covers'
    cases located'.symm.trans located₁
    rw [childHolds, childHolds, heap]
    exact twin.store_source run.good.heap inside holds
  · intro store v
    obtain ⟨s₁, b₁, found, located₁, -, heap, shareMap⟩ := store.heap here
    rw [locate_plain copied.plain] at located₁
    cases located₁
    -- the parent's side is behind the same entry of the same map
    have located'' : e'.locate w' a = some (s', b) := by
      rw [locate, shareMap copied.plain]
      exact located'
    refine (holds_iff (loop.result old).parent covers' located'').trans
      (Iff.trans ?_ (holds_iff (loop.result old).parent covers' located').symm)
    rw [heap]
    exact twin.store_copy run.good.heap inside

end Forking.Ran

end Parts

/-- `vm_map_fork` does not panic, and it does what the inheritance values prescribe exactly if the
condition holds. -/
theorem vmMapFork_exact (pos : 0 < page) (wf : ForkWf page w old) :
    ∃ r, vmMapFork page w old = some r ∧
      (Prescribed page pager zero w old r ↔ ForkCondition w old) := by
  obtain ⟨loop, added, looped, run⟩ : ∃ loop added,
      forkLoop page w (vmMapCreate ℕ old.minOffset old.maxOffset) old.entries = some loop ∧
        loop.Ran page pager w old added := forkLoop_spec (hasPage pager) pos
    ⟨wf.heap, Finset.Subset.refl _, fun m below => (wf.shares m below).linked, wf.entries⟩ wf.ready
    (.create ℕ _ _) (forall_mem_nil _) le_rfl wf.inv.list.segments
  have child : (loop.result old).child.entries = added := run.child
  refine ⟨loop.result old, by rw [vmMapFork, looped]; rfl, fun prescribed => ?_,
    fun condition => ?_⟩
  · have protection := prescribed.protection
    have unwired := prescribed.unwired
    have size := prescribed.size
    rw [child] at protection unwired size
    exact ⟨(run.size wf).mp size, fun e mem share =>
        ⟨run.sharing.mp prescribed.sharing e mem share,
          (run.unwired wf).mp unwired e mem share⟩,
      (run.protection wf).mp protection⟩
  · refine ⟨fun a => ?_, fun a e c covers piece => ?_, fun a aligned some_ d => ?_,
      fun c mem => ?_, ?_, fun a e covers share d w' map' => run.aliased covers share,
      fun a e aligned covers copy d w' map' => run.independent wf aligned covers copy,
      fun a d => run.parentContents wf, kept_wiring run.parent, rfl, ?_⟩
    · rw [child]
      exact run.ranges wf
    · rw [child] at piece
      exact (run.protection wf).mpr condition.execute a e c covers piece
    · rw [child] at some_
      exact run.contents wf aligned some_
    · rw [child] at mem
      exact (run.unwired wf).mpr
        (fun e mem share => (condition.shared e mem share).2) c mem
    · rw [child]
      exact (run.size wf).mpr condition.inherited
    · exact run.sharing.mpr fun e mem share => (condition.shared e mem share).1

end Fork

/-! ## A parent with one entry -/

/-- One memory object, with one page. -/
def forkWorld : World Unit ℕ where
  heap :=
    { live := {0}
      object := fun _ => { vmObjectAllocate Unit ℕ 0x1000 with memq := [(0, 5)] }
      next := 1 }
  shareMap _ := vmMapCreate ℕ 0 0
  nextMap := 0

/-- An entry that maps the object at one page. -/
def forkPage (inheritance : BitVec 32) : Entry ℕ where
  id := 0
  start := 0x1000
  stop := 0x2000
  object := some 0
  offset := 0
  isAMap := false
  isShared := false
  isSubMap := false
  copyOnWrite := false
  inTransition := false
  needsWakeup := false
  needsCopy := false
  protection := vmProtDefault
  maxProtection := vmProtAll
  inheritance := inheritance
  wiredCount := 0
  userWiredCount := 0

/-- A parent with this entry. -/
def forkParent (inheritance : BitVec 32) : VmMap ℕ where
  minOffset := 0x1000
  maxOffset := 0x3000
  entries := [forkPage inheritance]
  counts := ⟨1, 0x1000, 1⟩
  hint := none
  firstFree := none
  isMainMap := true

variable (inheritance : BitVec 32)

theorem forkParent_inv : (forkParent inheritance).Inv := by
  refine ⟨⟨?_, nodup_singleton _, ?_, rfl, ?_, ?_⟩, nofun, nofun, rfl⟩
  · simp [forkParent, forkPage, Segments]
  · simp [forkParent, forkPage]
  · rw [show (forkParent inheritance).entries = [forkPage inheritance] from rfl, rangeSum_singleton]
    show (0x1000 : ℤ) = ((0x2000 : ℕ) : ℤ) - ((0x1000 : ℕ) : ℤ)
    norm_num
  · simp [forkParent, forkPage]

theorem forkPage_ready :
    forkWorld.Ready 0x1000 forkWorld.heap.live (forkPage inheritance) := by
  have start : 0x1000 ∣ (forkPage inheritance).start := dvd_refl 0x1000
  have stop : 0x1000 ∣ (forkPage inheritance).stop := by
    show 0x1000 ∣ 0x2000
    norm_num
  have low : (forkPage inheritance).stop < 2 ^ 32 := by simp [forkPage]
  refine ⟨start, stop, low, rfl, fun _ => ⟨rfl, ?_, start, stop, low, ?_⟩, nofun⟩
  · simp [forkPage, forkWorld]
  · exact fun wired => absurd rfl wired

theorem forkParent_wf :
    ForkWf 0x1000 forkWorld (forkParent inheritance) where
  inv := forkParent_inv inheritance
  heap := ⟨nofun, by simp [forkWorld], nofun⟩
  shares := nofun
  entries := nofun
  ready e mem := by
    obtain rfl := mem_singleton.mp mem
    exact forkPage_ready inheritance

/-- The fork of a parent whose page is copied. -/
theorem vmMapFork_exact_copied :
    ∃ r, vmMapFork 0x1000 forkWorld (forkParent vmInheritCopy) = some r ∧
    Prescribed 0x1000 (fun _ _ => none) 0 forkWorld (forkParent vmInheritCopy) r := by
  obtain ⟨r, forked, exact_⟩ := vmMapFork_exact (show 0 < 0x1000 by decide)
    (forkParent_wf vmInheritCopy)
  refine ⟨r, forked, exact_.mpr ⟨fun e mem => ?_, fun e mem share => ?_,
    fun e mem _ isMap => ?_⟩⟩
  · obtain rfl := mem_singleton.mp mem
    exact .inr rfl
  · obtain rfl := mem_singleton.mp mem
    exact absurd share (by decide)
  · obtain rfl := mem_singleton.mp mem
    cases isMap

/-- The fork of a parent whose page is shared: the new sharing map has the size 0. -/
theorem vmMapFork_unsized : ForkWf 0x1000 forkWorld (forkParent vmInheritShare) ∧
    ∃ r, vmMapFork 0x1000 forkWorld (forkParent vmInheritShare) = some r ∧
      ¬ Prescribed 0x1000 (fun _ _ => none) 0 forkWorld (forkParent vmInheritShare) r := by
  refine ⟨forkParent_wf vmInheritShare, _, rfl, fun prescribed => ?_⟩
  refine (prescribed.sharing 0 le_rfl Nat.zero_lt_one).size_ne_zero (a := 0x1000)
    (s := (forkPage vmInheritShare).withId 0) ?_ rfl
  exact entryAt_cons_of_inside (e := (forkPage vmInheritShare).withId 0) le_rfl
    (by simp [forkPage, withId]) []

end Darwin.Vm.Map
