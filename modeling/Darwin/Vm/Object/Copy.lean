import Darwin.Vm.Object.Collapse

/-!
# Copies of memory objects

`vm_object_copy` makes a copy of an object without moving a page.  If nobody else sees the pages of
the object, the copy is the object itself, and both sides must shadow it before they write.  If a
pager sees them, the copy is a copy object: an empty object that shadows it, and that a write to the
object pushes the old page to.

Objects are named by their addresses, and `next` is the address of the next object that is
allocated.

## Main results

* `vmObjectCopy_grows` - a copy changes nothing that an object shows
* `Heap.Backs.holds` - the copy holds what the source holds
* `Heap.CleanCopy.write`, `Heap.Isolated.write` - where a write is not seen
-/

namespace Darwin.Vm.Object

open Option
open Function (update update_of_ne update_self)

/-! ## Data -/

/-- The objects, with the address of the next one. -/
structure Heap (P D : Type*) extends Objects ℕ P D where
  next : ℕ

variable {P D : Type*}

/-- `vm_object_allocate`. -/
def vmObjectAllocate (P D : Type*) (size : ℕ) : VmObject ℕ P D where
  memq := []
  size := size
  refCount := 1
  copy := none
  shadow := none
  shadowOffset := 0
  pager := none
  pagingOffset := 0
  pagingInProgress := 0
  internal := true

/-- An object is changed. -/
def Heap.set (h : Heap P D) (i : ℕ) (o : VmObject ℕ P D) : Heap P D :=
  { h with object := update h.object i o }

/-- An object is allocated. -/
def Heap.add (h : Heap P D) (o : VmObject ℕ P D) : Heap P D where
  live := insert h.next h.live
  object := update h.object h.next o
  next := h.next + 1

/-- The copy object of an object, if it is empty: no changes have been made since it was made. -/
def Heap.emptyCopy (h : Heap P D) (src : ℕ) : Option ℕ :=
  (h.object src).copy.filter fun copy =>
    (h.object copy).memq.isEmpty && (h.object copy).pager.isNone

/-- The old copy object shadows the new one. -/
def Heap.redirect (h : Heap P D) (new : ℕ) : Option ℕ → Heap P D
  | none => h
  | some old => h.set old { h.object old with shadow := some new }

/-- The part of `vm_object_copy` that makes a copy object. -/
def Heap.newCopy (h : Heap P D) (src : ℕ) : Heap P D :=
  let old := (h.object src).copy
  let h' := (h.add { vmObjectAllocate P D (h.object src).size with
    shadow := some src, refCount := if old.isSome then 2 else 1 }).redirect h.next old
  h'.set src { h'.object src with
    copy := some h.next
    -- the reference of the old copy object is given up
    refCount := (h.object src).refCount + if old.isSome then 0 else 1 }

/-- Another reference to an object. -/
def Heap.reference (h : Heap P D) (i : ℕ) : Heap P D :=
  h.set i { h.object i with refCount := (h.object i).refCount + 1 }

/-- `vm_object_copy`: the heap, the object and the offset of the copy, and whether the source needs
to be shadowed before it is written. -/
def vmObjectCopy (h : Heap P D) (src : Option ℕ) (offset : BitVec 32) :
    Heap P D × Option ℕ × BitVec 32 × Bool :=
  match src with
  | none => (h, none, 0, false)
  | some src =>
    if (h.object src).pager.isNone ∨ (h.object src).internal then
      (h.reference src, some src, offset, true)
    else
      -- `vm_object_collapse` returns at once, since the object has a pager
      match h.emptyCopy src with
      | some copy => (h.reference copy, some copy, offset, false)
      | none => (h.newCopy src, some h.next, offset, false)

/-! ## Writing -/

/-- The data that the search finds. -/
def Found.data (pager : P → ℕ → Option D) (zero : D) : Found P D → D
  | .page p => p
  | .paged p offset => (pager p offset).getD zero
  | .zero => zero

/-- Which pages the pagers have. -/
def hasPage (pager : P → ℕ → Option D) (p : P) (offset : ℕ) : Bool := (pager p offset).isSome

/-- The data at an offset of an object; no object stands for zeros. -/
def Heap.Holds (pager : P → ℕ → Option D) (zero : D) (h : Heap P D) (o : Option ℕ) (offset : ℕ)
    (d : D) : Prop :=
  match o with
  | none => d = zero
  | some o => ∃ found, Shows (hasPage pager) h.toObjects o offset found ∧ found.data pager zero = d

/-- The page at an offset is replaced, or entered. -/
def setPage (memq : List (ℕ × D)) (offset : ℕ) (p : D) : List (ℕ × D) :=
  (offset, p) :: memq.filter fun q => q.1 != offset

/-- The copy-object handling of `vm_fault`: the old page is pushed to the copy object, unless that
has its own. -/
def Heap.push (has : P → ℕ → Bool) (h : Heap P D) (i offset : ℕ) (old : D) : Heap P D :=
  match (h.object i).copy with
  | none => h
  | some copy =>
    let copyOffset := (offset + (2 ^ 32 - (h.object copy).shadowOffset % 2 ^ 32)) % 2 ^ 32
    if ((h.object copy).hit has copyOffset).isSome then h
    else h.set copy { h.object copy with memq := setPage (h.object copy).memq copyOffset old }

/-- A page of an object is written, behind a fault that has copied it to the object. -/
def Heap.writePage (has : P → ℕ → Bool) (h : Heap P D) (i offset : ℕ) (old new : D) : Heap P D :=
  let h := h.push has i offset old
  h.set i { h.object i with memq := setPage (h.object i).memq offset new }

/-! ## Well-formed heaps -/

/-- What links mention exists, and a copy object shadows its object from the start. -/
structure Heap.Wf (h : Heap P D) : Prop where
  closed : ∀ i ∈ h.live, ∀ s, (h.object i).shadow = some s → s ∈ h.live
  fresh : ∀ i ∈ h.live, i < h.next
  copies : ∀ i ∈ h.live, ∀ c, (h.object i).copy = some c →
    c ∈ h.live ∧ c ≠ i ∧ (h.object c).shadow = some i ∧ (h.object c).shadowOffset = 0

/-- An object has an empty copy object. -/
structure Heap.CleanCopy (h : Heap P D) (i c : ℕ) : Prop where
  copy : (h.object i).copy = some c
  memq : (h.object c).memq = []
  pager : (h.object c).pager = none

/-- Nothing refers to an object but entries. -/
structure Heap.Isolated (h : Heap P D) (n : ℕ) : Prop where
  live : n ∈ h.live
  copy : (h.object n).copy = none
  shadows : ∀ i ∈ h.live, (h.object i).shadow ≠ some n
  copies : ∀ i ∈ h.live, (h.object i).copy ≠ some n

/-- What an operation keeps that makes objects and copies objects of `sources`. -/
structure Heap.Grows (has : P → ℕ → Bool) (sources : Finset ℕ) (h h' : Heap P D) : Prop where
  wf : h'.Wf
  live : h.live ⊆ h'.live
  same : ∀ i ∈ h.live, (h'.object i).memq = (h.object i).memq ∧
    (h'.object i).pager = (h.object i).pager ∧
    (h'.object i).pagingOffset = (h.object i).pagingOffset ∧
    (h'.object i).internal = (h.object i).internal
  shows_ : ∀ i ∈ h.live, ∀ offset found,
    Shows has h'.toObjects i offset found ↔ Shows has h.toObjects i offset found
  clean : ∀ i ∈ h.live, ∀ c, h.CleanCopy i c → h'.CleanCopy i c
  isolated : ∀ n ∉ sources, h.Isolated n → h'.Isolated n

section Grows

variable {has : P → ℕ → Bool} {sources : Finset ℕ} {h h' : Heap P D} {i src : ℕ}

theorem Heap.Grows.refl (wf : h.Wf) : h.Grows has sources h where
  wf := wf
  live := Finset.Subset.refl _
  same _ _ := ⟨rfl, rfl, rfl, rfl⟩
  shows_ _ _ _ _ := Iff.rfl
  clean _ _ _ clean := clean
  isolated _ _ isolated := isolated

theorem Heap.Grows.trans {h₁ h₂ h₃ : Heap P D} (first : h₁.Grows has sources h₂)
    (second : h₂.Grows has sources h₃) : h₁.Grows has sources h₃ where
  wf := second.wf
  live := first.live.trans second.live
  same i mem := by
    obtain ⟨memq, pager, pagingOffset, internal⟩ := first.same i mem
    obtain ⟨memq', pager', pagingOffset', internal'⟩ := second.same i (first.live mem)
    exact ⟨memq'.trans memq, pager'.trans pager, pagingOffset'.trans pagingOffset,
      internal'.trans internal⟩
  shows_ i mem offset found :=
    (second.shows_ i (first.live mem) offset found).trans (first.shows_ i mem offset found)
  clean i mem c clean := second.clean i (first.live mem) c (first.clean i mem c clean)
  isolated n other isolated := second.isolated n other (first.isolated n other isolated)

variable {offset : ℕ} {found : Found P D} {o : VmObject ℕ P D}

/-- Objects that are closed under their shadows show the same if they are the same. -/
theorem shows_of_agree {g g' : Objects ℕ P D} (inside : ℕ → Prop)
    (closed : ∀ i, inside i → ∀ s, (g.object i).shadow = some s → inside s)
    (agree : ∀ i, inside i → (g'.object i).hit has = (g.object i).hit has ∧
      (g'.object i).shadow = (g.object i).shadow ∧
      (g'.object i).shadowOffset = (g.object i).shadowOffset) (mem : inside i) :
    Shows has g' i offset found ↔ Shows has g i offset found := by
  constructor
  · intro shows_
    induction shows_ with
    | here hit => exact .here ((agree _ mem).1 ▸ hit)
    | @shadow i s offset found missing link _ ih =>
      obtain ⟨hit, shadow, shadowOffset⟩ := agree i mem
      rw [hit] at missing
      rw [shadow] at link
      rw [shadowOffset] at ih
      exact .shadow missing link (ih (closed i mem s link))
    | zero missing bottom =>
      obtain ⟨hit, shadow, -⟩ := agree _ mem
      exact .zero (hit ▸ missing) (shadow ▸ bottom)
  · intro shows_
    induction shows_ with
    | here hit => exact .here ((agree _ mem).1.symm ▸ hit)
    | @shadow i s offset found missing link _ ih =>
      obtain ⟨hit, shadow, shadowOffset⟩ := agree i mem
      refine .shadow (s := s) (by rw [hit]; exact missing) (by rw [shadow]; exact link) ?_
      rw [shadowOffset]
      exact ih (closed i mem s link)
    | zero missing bottom =>
      obtain ⟨hit, shadow, -⟩ := agree _ mem
      exact .zero (by rw [hit]; exact missing) (by rw [shadow]; exact bottom)

namespace Heap

/-- What two heaps have in common that differ in reference counts. -/
theorem reference_object (h : Heap P D) (target i : ℕ) :
    (h.reference target).object i =
      { h.object i with refCount := ((h.reference target).object i).refCount } := by
  rw [Heap.reference, Heap.set]
  dsimp only
  by_cases here : i = target
  · subst here
    rw [update_self]
  · rw [update_of_ne here]

theorem reference_grows (wf : h.Wf) (target : ℕ) :
    h.Grows has sources (h.reference target) where
  wf := by
    refine ⟨fun i mem s link => ?_, wf.fresh, fun i mem c copy => ?_⟩
    · rw [reference_object] at link
      exact wf.closed i mem s link
    · rw [reference_object] at copy
      rw [reference_object]
      exact wf.copies i mem c copy
  live := Finset.Subset.refl _
  same i _ := by
    rw [reference_object]
    exact ⟨rfl, rfl, rfl, rfl⟩
  shows_ i mem offset found := by
    refine shows_of_agree (· ∈ h.live) wf.closed (fun i _ => ?_) mem
    rw [reference_object]
    exact ⟨rfl, rfl, rfl⟩
  clean i _ c clean := by
    refine ⟨?_, ?_, ?_⟩
    · rw [reference_object]
      exact clean.copy
    · rw [reference_object]
      exact clean.memq
    · rw [reference_object]
      exact clean.pager
  isolated n _ isolated := by
    refine ⟨isolated.live, ?_, fun i mem => ?_, fun i mem => ?_⟩
    · rw [reference_object]
      exact isolated.copy
    · rw [reference_object]
      exact isolated.shadows i mem
    · rw [reference_object]
      exact isolated.copies i mem

/-! ## Allocation -/

theorem add_self (h : Heap P D) (o : VmObject ℕ P D) : (h.add o).object h.next = o :=
  update_self ..

theorem add_other (o : VmObject ℕ P D) (other : i ≠ h.next) :
    (h.add o).object i = h.object i :=
  update_of_ne other ..

theorem Wf.ne_next (wf : h.Wf) (mem : i ∈ h.live) : i ≠ h.next := (wf.fresh i mem).ne

variable (wf : h.Wf) (noCopy : o.copy = none) (shadow : ∀ s, o.shadow = some s → s ∈ h.live)

include wf noCopy shadow

/-- An object is allocated that has no copy object. -/
theorem add_grows (other : ∀ s, o.shadow = some s → s ∈ sources) :
    h.Grows has sources (h.add o) where
  wf := by
    refine ⟨fun i mem s link => ?_, fun i mem => ?_, fun i mem c copy => ?_⟩
    · rcases Finset.mem_insert.mp mem with rfl | old
      · rw [add_self] at link
        exact Finset.mem_insert_of_mem (shadow s link)
      · rw [add_other o (wf.ne_next old)] at link
        exact Finset.mem_insert_of_mem (wf.closed i old s link)
    · rcases Finset.mem_insert.mp mem with rfl | old
      · exact Nat.lt_succ_self _
      · exact Nat.lt_succ_of_lt (wf.fresh i old)
    rcases Finset.mem_insert.mp mem with rfl | old
    · rw [add_self, noCopy] at copy
      cases copy
    rw [add_other o (wf.ne_next old)] at copy
    obtain ⟨live, rest⟩ := wf.copies i old c copy
    rw [add_other o (wf.ne_next live)]
    exact ⟨Finset.mem_insert_of_mem live, rest⟩
  live := Finset.subset_insert _ _
  same i mem := by
    rw [add_other o (wf.ne_next mem)]
    exact ⟨rfl, rfl, rfl, rfl⟩
  shows_ i mem offset found := by
    refine shows_of_agree (· ∈ h.live) wf.closed (fun i inside => ?_) mem
    rw [add_other o (wf.ne_next inside)]
    exact ⟨rfl, rfl, rfl⟩
  clean i mem c clean := by
    obtain ⟨live, -⟩ := wf.copies i mem c clean.copy
    refine ⟨?_, ?_, ?_⟩
    · rw [add_other o (wf.ne_next mem)]
      exact clean.copy
    · rw [add_other o (wf.ne_next live)]
      exact clean.memq
    · rw [add_other o (wf.ne_next live)]
      exact clean.pager
  isolated n outside isolated := by
    refine ⟨Finset.mem_insert_of_mem isolated.live, ?_, fun i mem => ?_, fun i mem => ?_⟩
    · rw [add_other o (wf.ne_next isolated.live)]
      exact isolated.copy
    · rcases Finset.mem_insert.mp mem with rfl | old
      · rw [add_self]
        exact fun link => outside (other n link)
      · rw [add_other o (wf.ne_next old)]
        exact isolated.shadows i old
    · rcases Finset.mem_insert.mp mem with rfl | old
      · rw [add_self, noCopy]
        exact nofun
      · rw [add_other o (wf.ne_next old)]
        exact isolated.copies i old

/-- Nothing refers to an object that has just been allocated. -/
theorem add_isolated : (h.add o).Isolated h.next where
  live := Finset.mem_insert_self _ _
  copy := by rw [add_self, noCopy]
  shadows i mem := by
    rcases Finset.mem_insert.mp mem with rfl | old
    · rw [add_self]
      exact fun link => wf.ne_next (shadow _ link) rfl
    · rw [add_other o (wf.ne_next old)]
      exact fun link => wf.ne_next (wf.closed i old _ link) rfl
  copies i mem := by
    rcases Finset.mem_insert.mp mem with rfl | old
    · rw [add_self, noCopy]
      exact nofun
    · rw [add_other o (wf.ne_next old)]
      exact fun copy => wf.ne_next (wf.copies i old _ copy).1 rfl

omit wf noCopy shadow

/-! ## A new copy object -/

/-- What a new copy object changes of the objects that there were. -/
theorem newCopy_old (wf : h.Wf) (source : src ∈ h.live) (mem : i ∈ h.live) :
    (h.newCopy src).object i = { h.object i with
      copy := if i = src then some h.next else (h.object i).copy
      shadow := if (h.object src).copy = some i then some h.next else (h.object i).shadow
      refCount := ((h.newCopy src).object i).refCount } := by
  have fresh := wf.ne_next mem
  have fresh' := wf.ne_next source
  rw [newCopy]
  dsimp only [set]
  cases copy : (h.object src).copy with
  | none =>
    by_cases here : i = src
    · subst here
      simp [redirect, add, fresh]
    · simp [redirect, add, fresh, here]
  | some old =>
    obtain ⟨-, other, -⟩ := wf.copies src source old copy
    by_cases here : i = src
    · subst here
      simp [redirect, set, add, fresh, other, other.symm]
    by_cases there : i = old
    · subst there
      simp [redirect, set, add, fresh, here]
    · simp [redirect, set, add, fresh, here, there, Ne.symm there]

theorem newCopy_live (h : Heap P D) (src : ℕ) :
    (h.newCopy src).live = insert h.next h.live := by
  rw [newCopy]
  cases (h.object src).copy <;> rfl

theorem newCopy_next (h : Heap P D) (src : ℕ) : (h.newCopy src).next = h.next + 1 := by
  rw [newCopy]
  cases (h.object src).copy <;> rfl

theorem newCopy_new (wf : h.Wf) (source : src ∈ h.live) :
    (h.newCopy src).object h.next = { vmObjectAllocate P D (h.object src).size with
      shadow := some src
      refCount := if (h.object src).copy.isSome then 2 else 1 } := by
  have fresh := (wf.ne_next source).symm
  rw [newCopy]
  dsimp only [set]
  cases copy : (h.object src).copy with
  | none => simp [redirect, add, fresh]
  | some old =>
    have fresh' := (wf.ne_next (wf.copies src source old copy).1).symm
    simp [redirect, set, add, fresh, fresh']

theorem newCopy_hit (has : P → ℕ → Bool) (wf : h.Wf) (source : src ∈ h.live)
    (mem : i ∈ h.live) :
    ((h.newCopy src).object i).hit has = (h.object i).hit has ∧
      ((h.newCopy src).object i).shadowOffset = (h.object i).shadowOffset := by
  rw [newCopy_old wf source mem]
  exact ⟨rfl, rfl⟩

variable (wf : h.Wf) (source : src ∈ h.live)

include wf source

theorem newCopy_hit_new (offset : ℕ) :
    ((h.newCopy src).object h.next).hit has offset = none := by
  rw [newCopy_new wf source]
  rfl

/-- The old copy object, which now shadows the new one, has the object below that. -/
theorem newCopy_shadow (mem : i ∈ h.live) :
    ((h.newCopy src).object i).shadow = (h.object i).shadow ∧ (h.object src).copy ≠ some i ∨
      ((h.newCopy src).object i).shadow = some h.next ∧ (h.object i).shadow = some src ∧
        (h.object i).shadowOffset = 0 := by
  rw [newCopy_old wf source mem]
  dsimp only
  split_ifs with old
  · obtain ⟨-, -, shadow, shadowOffset⟩ := wf.copies src source i old
    exact .inr ⟨rfl, shadow, shadowOffset⟩
  · exact .inl ⟨rfl, old⟩

theorem newCopy_shows_forth (shows_ : Shows has (h.newCopy src).toObjects i offset found) :
    (i ∈ h.live → Shows has h.toObjects i offset found) ∧
      (i = h.next → Shows has h.toObjects src (offset % 2 ^ 32) found) := by
  induction shows_ with
  | here hit =>
    constructor
    · intro mem
      exact .here ((newCopy_hit has wf source mem).1 ▸ hit)
    · rintro rfl
      rw [newCopy_hit_new wf source] at hit
      cases hit
  | @shadow i s offset found missing link _ ih =>
    constructor
    · intro mem
      obtain ⟨hit, shadowOffset⟩ := newCopy_hit has wf source mem
      rw [hit] at missing
      rw [shadowOffset] at ih
      rcases newCopy_shadow wf source mem with ⟨same, -⟩ | ⟨new, old, zero⟩
      · rw [same] at link
        exact .shadow missing link (ih.1 (wf.closed i mem s link))
      -- the old copy object: two links in the place of one
      cases link.symm.trans new
      refine .shadow missing old ?_
      have below := ih.2 rfl
      rw [Nat.mod_mod] at below
      exact below
    · rintro rfl
      rw [newCopy_new wf source] at link ih
      cases link
      exact ih.1 source
  | @zero i offset missing bottom =>
    constructor
    · intro mem
      rw [(newCopy_hit has wf source mem).1] at missing
      rcases newCopy_shadow wf source mem with ⟨same, -⟩ | ⟨new, -⟩
      · exact .zero missing (same ▸ bottom)
      · rw [new] at bottom
        cases bottom
    · rintro rfl
      rw [newCopy_new wf source] at bottom
      cases bottom

theorem newCopy_shows_back (shows_ : Shows has h.toObjects i offset found) (mem : i ∈ h.live) :
    Shows has (h.newCopy src).toObjects i offset found := by
  induction shows_ with
  | here hit => exact .here ((newCopy_hit has wf source mem).1.symm ▸ hit)
  | @shadow i s offset found missing link _ ih =>
    obtain ⟨hit, shadowOffset⟩ := newCopy_hit has wf source mem
    have below := ih (wf.closed i mem s link)
    rw [← shadowOffset] at below
    rw [← hit] at missing
    rcases newCopy_shadow wf source mem with ⟨same, -⟩ | ⟨new, old, -⟩
    · exact .shadow missing (same.trans link) below
    obtain rfl := some.inj (link.symm.trans old)
    refine .shadow missing new (.shadow (newCopy_hit_new wf source _) (s := s) ?_ ?_)
    · rw [newCopy_new wf source]
    rw [newCopy_new wf source]
    show Shows has _ s ((_ + 0) % 2 ^ 32) found
    rw [add_zero, Nat.mod_mod]
    exact below
  | @zero i offset missing bottom =>
    obtain ⟨hit, -⟩ := newCopy_hit has wf source mem
    rcases newCopy_shadow wf source mem with ⟨same, -⟩ | ⟨-, old, -⟩
    · exact .zero (by rw [hit]; exact missing) (same.trans bottom)
    · rw [old] at bottom
      cases bottom

theorem newCopy_wf : (h.newCopy src).Wf where
  closed i mem s link := by
    rw [newCopy_live] at mem ⊢
    rcases Finset.mem_insert.mp mem with rfl | old
    · rw [newCopy_new wf source] at link
      cases link
      exact Finset.mem_insert_of_mem source
    rcases newCopy_shadow wf source old with ⟨same, -⟩ | ⟨new, -⟩
    · rw [same] at link
      exact Finset.mem_insert_of_mem (wf.closed i old s link)
    · cases new.symm.trans link
      exact Finset.mem_insert_self _ _
  fresh i mem := by
    rw [newCopy_live] at mem
    rw [newCopy_next]
    rcases Finset.mem_insert.mp mem with rfl | old
    · exact Nat.lt_succ_self _
    · exact Nat.lt_succ_of_lt (wf.fresh i old)
  copies i mem c copy := by
    rw [newCopy_live] at mem ⊢
    rcases Finset.mem_insert.mp mem with rfl | old
    · rw [newCopy_new wf source] at copy
      cases copy
    rw [newCopy_old wf source old] at copy
    dsimp only at copy
    split_ifs at copy with here
    · cases copy
      rw [newCopy_new wf source, here]
      exact ⟨Finset.mem_insert_self _ _, (wf.ne_next source).symm, rfl, rfl⟩
    obtain ⟨live, other, shadow, shadowOffset⟩ := wf.copies i old c copy
    rw [(newCopy_hit (fun _ _ => false) wf source live).2]
    refine ⟨Finset.mem_insert_of_mem live, other, ?_, shadowOffset⟩
    rcases newCopy_shadow wf source live with ⟨same, -⟩ | ⟨-, link, -⟩
    · exact same.trans shadow
    · exact absurd (some.inj (shadow.symm.trans link)) here

/-- A new copy object is made only if the old one is not empty. -/
theorem newCopy_grows (inside : src ∈ sources) (used : h.emptyCopy src = none) :
    h.Grows has sources (h.newCopy src) where
  wf := newCopy_wf wf source
  live := by
    rw [newCopy_live]
    exact Finset.subset_insert _ _
  same i mem := by
    rw [newCopy_old wf source mem]
    exact ⟨rfl, rfl, rfl, rfl⟩
  shows_ i mem offset found :=
    ⟨fun shows_ => (newCopy_shows_forth wf source shows_).1 mem,
      fun shows_ => newCopy_shows_back wf source shows_ mem⟩
  clean i mem c clean := by
    obtain ⟨live, -⟩ := wf.copies i mem c clean.copy
    refine ⟨?_, ?_, ?_⟩
    · rw [newCopy_old wf source mem]
      rw [if_neg]
      · exact clean.copy
      · rintro rfl
        rw [emptyCopy, clean.copy] at used
        simp [Option.filter, clean.memq, clean.pager] at used
    · rw [newCopy_old wf source live]
      exact clean.memq
    · rw [newCopy_old wf source live]
      exact clean.pager
  isolated n outside isolated := by
    have other : n ≠ src := fun same => outside (same ▸ inside)
    have fresh := wf.ne_next isolated.live
    refine ⟨?_, ?_, fun i mem => ?_, fun i mem => ?_⟩
    · rw [newCopy_live]
      exact Finset.mem_insert_of_mem isolated.live
    · rw [newCopy_old wf source isolated.live]
      rw [if_neg other]
      exact isolated.copy
    · rw [newCopy_live] at mem
      rcases Finset.mem_insert.mp mem with rfl | old
      · rw [newCopy_new wf source]
        exact fun link => other (some.inj link).symm
      rcases newCopy_shadow wf source old with ⟨same, -⟩ | ⟨new, -⟩
      · rw [same]
        exact isolated.shadows i old
      · rw [new]
        exact fun link => fresh (some.inj link).symm
    · rw [newCopy_live] at mem
      rcases Finset.mem_insert.mp mem with rfl | old
      · rw [newCopy_new wf source]
        exact nofun
      rw [newCopy_old wf source old]
      dsimp only
      split_ifs with here
      · exact fun copy => fresh (some.inj copy).symm
      · exact isolated.copies i old

omit wf source

/-! ## `vm_object_copy` -/

/-- How the object of a copy backs what the source's object backs: nothing was copied, both sides
must make a shadow, or it is the copy object. -/
inductive Backs (h : Heap P D) : (source copy : Option ℕ) → (needsCopy : Bool) → Prop
  | empty : h.Backs none none false
  | shared {o : ℕ} (live : o ∈ h.live) : h.Backs (some o) (some o) true
  | copied {o c : ℕ} (live : o ∈ h.live) (copy : h.CleanCopy o c) : h.Backs (some o) (some c) false

end Heap

/-- `vm_object_copy` changes nothing that an object shows, and its copy is backed by the source. -/
theorem vmObjectCopy_grows (has : P → ℕ → Bool) (sources : Finset ℕ) (wf : h.Wf) (source : Option ℕ)
    (live : ∀ o, source = some o → o ∈ h.live ∧ o ∈ sources) (offset : BitVec 32) :
    h.Grows has sources (vmObjectCopy h source offset).1 ∧
      (vmObjectCopy h source offset).1.Backs source (vmObjectCopy h source offset).2.1
        (vmObjectCopy h source offset).2.2.2 ∧
      (source ≠ none → (vmObjectCopy h source offset).2.2.1 = offset) := by
  cases source with
  | none => exact ⟨.refl wf, .empty, fun some_ => absurd rfl some_⟩
  | some src =>
    obtain ⟨mem, inside⟩ := live src rfl
    simp only [vmObjectCopy]
    split_ifs with shared
    · exact ⟨h.reference_grows wf src, .shared mem, fun _ => rfl⟩
    cases empty : h.emptyCopy src with
    | some c =>
      have grows : h.Grows has sources (h.reference c) := h.reference_grows wf c
      refine ⟨grows, .copied mem (grows.clean src mem c ?_), fun _ => rfl⟩
      obtain ⟨copy, clean⟩ := filter_eq_some_iff.mp empty
      rw [Bool.and_eq_true, List.isEmpty_iff, isNone_iff_eq_none] at clean
      exact ⟨copy, clean.1, clean.2⟩
    | none =>
      refine ⟨Heap.newCopy_grows wf mem inside empty, .copied ?_ ⟨?_, ?_, ?_⟩, fun _ => rfl⟩
      · rw [Heap.newCopy_live]
        exact Finset.mem_insert_of_mem mem
      · rw [Heap.newCopy_old wf mem mem]
        exact if_pos rfl
      · rw [Heap.newCopy_new wf mem]
        rfl
      · rw [Heap.newCopy_new wf mem]
        rfl

end Grows

/-! ## What is seen of a write -/

section Write

variable {pager : P → ℕ → Option D} {zero : D} {h h' : Heap P D} {i o c n offset : ℕ} {d old : D}
  {target source copy : Option ℕ} {has : P → ℕ → Bool} {needsCopy : Bool}

theorem Heap.Grows.holds {sources : Finset ℕ} (grows : h.Grows (hasPage pager) sources h')
    (live : ∀ o, target = some o → o ∈ h.live) :
    h'.Holds pager zero target offset d ↔ h.Holds pager zero target offset d := by
  cases target with
  | none => exact Iff.rfl
  | some o =>
    refine exists_congr fun found => and_congr_left fun _ => ?_
    exact grows.shows_ o (live o rfl) offset found

theorem Heap.holds_of_hit (found : Found P D)
    (hit : (h.object i).hit (hasPage pager) offset = some found) :
    h.Holds pager zero (some i) offset d ↔ found.data pager zero = d := by
  constructor
  · rintro ⟨found', shows_, rfl⟩
    rw [(Shows.here hit).unique shows_]
  · intro data
    exact ⟨found, .here hit, data⟩

theorem Heap.Holds.unique {d' : D}
    (first : h.Holds pager zero target offset d) (second : h.Holds pager zero target offset d') :
    d = d' := by
  cases target with
  | none => exact Eq.trans first (Eq.symm second)
  | some o =>
    obtain ⟨found, shows_, rfl⟩ := first
    obtain ⟨found', shows', rfl⟩ := second
    rw [shows_.unique shows']

theorem Heap.CleanCopy.hit (clean : h.CleanCopy o c) :
    (h.object c).hit has offset = none := by
  rw [VmObject.hit, clean.memq, clean.pager]
  rfl

theorem Heap.Backs.live (wf : h.Wf)
    (backs : h.Backs source copy needsCopy) (same : copy = some o) : o ∈ h.live := by
  cases backs with
  | empty => cases same
  | shared live =>
    cases same
    exact live
  | copied live clean =>
    cases same
    exact (wf.copies _ live _ clean.copy).1

/-- A copy holds what the source holds. -/
theorem Heap.Backs.holds (wf : h.Wf)
    (backs : h.Backs source copy needsCopy) (low : offset < 2 ^ 32) :
    h.Holds pager zero copy offset d ↔ h.Holds pager zero source offset d := by
  cases backs with
  | empty => exact Iff.rfl
  | shared => exact Iff.rfl
  | @copied o c live clean =>
    obtain ⟨-, -, shadow, shadowOffset⟩ := wf.copies o live c clean.copy
    refine exists_congr fun found => and_congr_left fun _ => ?_
    rw [shows_iff, clean.hit, shadow, shadowOffset]
    rw [add_zero, Nat.mod_eq_of_lt low]

theorem vmPageLookup_setPage (memq : List (ℕ × D)) (offset : ℕ) (p : D) :
    vmPageLookup (setPage memq offset p) offset = some p := by
  rw [setPage, vmPageLookup_cons, if_pos rfl]

theorem hit_setPage (x : VmObject ℕ P D) (offset : ℕ) (p : D) :
    ({ x with memq := setPage x.memq offset p } : VmObject ℕ P D).hit has offset =
      some (.page p) := by
  rw [VmObject.hit, vmPageLookup_setPage]

theorem Heap.set_self (h : Heap P D) (i : ℕ) (x : VmObject ℕ P D) : (h.set i x).object i = x :=
  update_self ..

theorem Heap.set_other (h : Heap P D) {j : ℕ} (other : j ≠ i) (x : VmObject ℕ P D) :
    (h.set i x).object j = h.object j :=
  update_of_ne other ..

/-- What is written is seen. -/
theorem writePage_holds (h : Heap P D) (i offset : ℕ) (old d : D) :
    (h.writePage (hasPage pager) i offset old d).Holds pager zero (some i) offset d := by
  refine (Heap.holds_of_hit (.page d) ?_).mpr rfl
  rw [Heap.writePage, Heap.set_self, hit_setPage]

/-- An object that nothing refers to is changed: nothing else shows it. -/
theorem Heap.set_holds (wf : h.Wf) (alone : ∀ i ∈ h.live, (h.object i).shadow ≠ some n)
    (x : VmObject ℕ P D) (other : ∀ o, target = some o → o ∈ h.live ∧ o ≠ n) :
    (h.set n x).Holds pager zero target offset d ↔ h.Holds pager zero target offset d := by
  cases target with
  | none => exact Iff.rfl
  | some o =>
    refine exists_congr fun found => and_congr_left fun _ => ?_
    refine shows_of_agree (fun i => i ∈ h.live ∧ i ≠ n) ?_ ?_ (other o rfl)
    · rintro i ⟨mem, -⟩ s link
      refine ⟨wf.closed i mem s link, ?_⟩
      rintro rfl
      exact alone i mem link
    · rintro i ⟨-, other⟩
      have same : (h.set n x).object i = h.object i := h.set_other other x
      rw [same]
      exact ⟨rfl, rfl, rfl⟩

/-- A write to an object that nothing refers to is seen nowhere else. -/
theorem Heap.Isolated.write (isolated : h.Isolated n) (wf : h.Wf)
    (other : ∀ o, target = some o → o ∈ h.live ∧ o ≠ n) (offset' : ℕ) (new : D) :
    (h.writePage (hasPage pager) n offset' old new).Holds pager zero target offset d ↔
      h.Holds pager zero target offset d := by
  rw [Heap.writePage, Heap.push, isolated.copy]
  exact Heap.set_holds wf isolated.shadows _ other

/-- A write to an object is not seen in its copy object, which is given the old page. -/
theorem Heap.CleanCopy.write (clean : h.CleanCopy o c) (wf : h.Wf) (live : o ∈ h.live)
    (low : offset < 2 ^ 32) (holds : h.Holds pager zero (some o) offset old) (new : D) :
    (h.writePage (hasPage pager) o offset old new).Holds pager zero (some c) offset d ↔
      h.Holds pager zero (some c) offset d := by
  obtain ⟨-, other, -, shadowOffset⟩ := wf.copies o live c clean.copy
  have before : h.Holds pager zero (some c) offset d ↔ h.Holds pager zero (some o) offset d :=
    (Heap.Backs.copied live clean).holds wf low
  have same : (offset + (2 ^ 32 - 0 % 2 ^ 32)) % 2 ^ 32 = offset := by omega
  rw [before, Heap.writePage, Heap.push, clean.copy]
  dsimp only
  rw [shadowOffset, same, clean.hit, if_neg (by simp)]
  refine (Heap.holds_of_hit (.page old) ?_).trans ?_
  · rw [Heap.set_other _ other, Heap.set_self]
    exact hit_setPage (h.object c) offset old
  constructor
  · rintro rfl
    exact holds
  · exact fun also => holds.unique also

/-- An object with its own page does not show writes to others. -/
theorem Heap.Isolated.kept (isolated : h.Isolated n) (live : o ∈ h.live) (other : n ≠ o)
    (found : Found P D) (hit : (h.object n).hit (hasPage pager) offset = some found)
    (offset' : ℕ) (new : D) :
    (h.writePage (hasPage pager) o offset' old new).Holds pager zero (some n) offset d ↔
      h.Holds pager zero (some n) offset d := by
  have same : (h.push (hasPage pager) o offset' old).object n = h.object n := by
    rw [Heap.push]
    cases copy : (h.object o).copy with
    | none => rfl
    | some c =>
      have apart : n ≠ c := fun same => isolated.copies o live (same ▸ copy)
      dsimp only
      split_ifs
      · rfl
      · exact h.set_other apart _
  refine (Heap.holds_of_hit found ?_).trans (Heap.holds_of_hit found hit).symm
  rw [Heap.writePage, Heap.set_other _ other, same, hit]

end Write

end Darwin.Vm.Object
