import Darwin.Ipc.Entry.Invariant

/-!
# What growing a table keeps

The contents of a space are what `ipc_entry_lookup` finds under each name.  The part of
`ipc_entry_grow_table` that fills the new table moves entries out of the splay tree, marks
collisions and chains free slots; it leaves the contents as they are.

## Main definitions

* `IpcSpace.contents` — the right, object and request found under a name
* `IpcSpace.Placed` — tree entries with an index in the table stand behind a collision bit

## Main results

* `Placed.moveEntry`, `contents_moveEntry` — one moved entry
* `contents_extendTable` — the whole step
-/

namespace Darwin.Ipc

open Darwin.BitField

/-- What an entry holds: its right, its object and its request. -/
def IpcEntry.content (e : IpcEntry) : BitVec 32 × ℕ × ℕ := (ieBitsRight e.bits, e.object, e.index)

/-- Bits of a tree entry: a right without generation or collision. -/
def TreeBits (bits : BitVec 32) : Prop :=
  bits &&& ieBitsRightMask = bits ∧ ieBitsType bits ≠ 0#32

namespace IpcSpace

/-- What `ipc_entry_lookup` finds under a name. -/
def contents (s : IpcSpace) (name : ℕ) : Option (BitVec 32 × ℕ × ℕ) :=
  (s.lookup name).map fun ref => (s.entry ref).content

/-- The slot of a name's index is in use for it. -/
def SlotHolds (s : IpcSpace) (name : ℕ) : Prop :=
  portIndex name < s.tableSize ∧ ieBitsType (s.table (portIndex name)).bits ≠ 0#32 ∧
    ieBitsGen (s.table (portIndex name)).bits = portGen name

instance (s : IpcSpace) (name : ℕ) : Decidable (s.SlotHolds name) :=
  inferInstanceAs (Decidable (_ ∧ _ ∧ _))

/-- The contents of the slots and the tree together, without regard to collision bits. -/
def view (s : IpcSpace) (name : ℕ) : Option (BitVec 32 × ℕ × ℕ) :=
  if s.SlotHolds name then some (s.table (portIndex name)).content
  else if name ∈ s.tree.names then some (s.tree.entry name).content
  else none

/-- The entries of the tree: their number, and their bits. -/
structure TreeInv (s : IpcSpace) : Prop where
  total : s.treeTotal = s.tree.names.card
  bits : ∀ name ∈ s.tree.names, TreeBits (s.tree.entry name).bits

/-- A name of the tree whose index lies in the table stands behind a collision bit, on a slot with
another generation; the slot of the free list's head is not in use. -/
structure Placed (s : IpcSpace) : Prop extends TreeInv s where
  head : ieBitsType (s.table 0).bits = 0#32
  behind : ∀ name ∈ s.tree.names, portIndex name < s.tableSize →
    ieBitsGen (s.table (portIndex name)).bits ≠ portGen name ∧
      (s.table (portIndex name)).bits &&& ieBitsCollision ≠ 0#32

section View

variable {s : IpcSpace} {name : ℕ}

/-- In a space whose entries are placed, lookup finds the view. -/
theorem Placed.contents_eq (placed : s.Placed) : s.contents name = s.view name := by
  rw [contents, lookup, view]
  by_cases mem : portIndex name < s.tableSize
  · rw [if_pos mem]
    by_cases gen : ieBitsGen (s.table (portIndex name)).bits = portGen name
    · rw [if_neg (not_not_intro gen)]
      have notTree : name ∉ s.tree.names := fun inTree => (placed.behind name inTree mem).1 gen
      by_cases type : ieBitsType (s.table (portIndex name)).bits = 0#32
      · rw [if_pos type, if_neg (fun holds : s.SlotHolds name => holds.2.1 type), if_neg notTree]
        rfl
      · have holds : s.SlotHolds name := ⟨mem, type, gen⟩
        rw [if_neg type, if_pos holds]
        rfl
    · rw [if_pos gen, if_neg (fun holds : s.SlotHolds name => gen holds.2.2)]
      by_cases inTree : name ∈ s.tree.names
      · rw [if_pos (placed.behind name inTree mem).2, treeLookup, if_pos inTree, if_pos inTree]
        rfl
      · rw [treeLookup, if_neg inTree, if_neg inTree, ite_self]
        rfl
  · rw [if_neg mem, if_neg (fun holds : s.SlotHolds name => mem holds.1)]
    by_cases inTree : name ∈ s.tree.names
    · have total : s.treeTotal ≠ 0 := by
        rw [placed.total]
        exact Finset.card_ne_zero_of_mem inTree
      rw [if_neg total, treeLookup, if_pos inTree, if_pos inTree]
      rfl
    · rw [treeLookup, if_neg inTree, if_neg inTree, ite_self]
      rfl

/-- The view depends on the slot of the name's index and on the tree. -/
theorem view_congr {s' : IpcSpace} (size : s'.tableSize = s.tableSize)
    (slot : s'.table (portIndex name) = s.table (portIndex name))
    (member : name ∈ s'.tree.names ↔ name ∈ s.tree.names)
    (entry : s'.tree.entry name = s.tree.entry name) : s'.view name = s.view name := by
  have holds : s'.SlotHolds name ↔ s.SlotHolds name := by
    rw [SlotHolds, SlotHolds, size, slot]
  simp only [view, holds, slot, member, entry]

end View

/-! ## Moving entries of the tree -/

/-- The state of a space while the entries `remaining` are still to be moved: every tree entry with
an index in the table is one of them or stands behind a collision bit. -/
structure Moving (s : IpcSpace) (remaining : List ℕ) : Prop extends TreeInv s where
  head : ieBitsType (s.table 0).bits = 0#32
  behind : ∀ name ∈ s.tree.names, portIndex name < s.tableSize →
    (name ∈ remaining ∨ (s.table (portIndex name)).bits &&& ieBitsCollision ≠ 0#32) ∧
      ((s.table (portIndex name)).bits = 0#32 ∨
        ieBitsGen (s.table (portIndex name)).bits ≠ portGen name)

section Moves

variable {s : IpcSpace} {name : ℕ} {remaining : List ℕ}

theorem Moving.placed (moving : s.Moving []) : s.Placed := by
  refine ⟨moving.toTreeInv, moving.head, fun name inTree mem => ?_⟩
  obtain ⟨collision, gen⟩ := moving.behind name inTree mem
  have collision := collision.resolve_left List.not_mem_nil
  refine ⟨gen.resolve_left fun zero => collision ?_, collision⟩
  rw [zero, BitVec.zero_and]

theorem moveEntry_taken (taken : (s.table (portIndex name)).bits ≠ 0#32) :
    s.moveEntry name = s.setSlot (portIndex name)
      { s.table (portIndex name) with
        bits := (s.table (portIndex name)).bits ||| ieBitsCollision } := by
  rw [moveEntry]
  exact if_pos taken

theorem moveEntry_free (free : (s.table (portIndex name)).bits = 0#32) :
    s.moveEntry name = { s.setSlot (portIndex name) ⟨(s.tree.entry name).bits ||| portGen name,
          (s.tree.entry name).object, (s.tree.entry name).index⟩ with
        tree := { s.tree with names := s.tree.names.erase name }
        treeTotal := s.treeTotal - 1 } := by
  rw [moveEntry]
  exact if_neg (not_not_intro free)

@[simp] theorem setSlot_table_self (index : ℕ) (e : IpcEntry) :
    (s.setSlot index e).table index = e := Function.update_self _ _ _

theorem setSlot_table_of_ne {index other : ℕ} (ne : other ≠ index) (e : IpcEntry) :
    (s.setSlot index e).table other = s.table other := Function.update_of_ne ne _ _

theorem tableSize_moveEntry : (s.moveEntry name).tableSize = s.tableSize := by
  rw [moveEntry]
  split <;> rfl

theorem tableNext_moveEntry : (s.moveEntry name).tableNext = s.tableNext := by
  rw [moveEntry]
  split <;> rfl

variable (bits : TreeBits (s.tree.entry name).bits)

include bits

/-- The bits of a moved entry are its right and its generation. -/
theorem ieBitsRight_moved :
    ieBitsRight ((s.tree.entry name).bits ||| portGen name) = (s.tree.entry name).bits := by
  rw [BitVec.or_comm]
  exact ieBitsRight_or_gen bits.1 (portGen_genMask name)

theorem ieBitsGen_moved :
    ieBitsGen ((s.tree.entry name).bits ||| portGen name) = portGen name := by
  rw [BitVec.or_comm]
  exact ieBitsGen_or_gen bits.1 (portGen_genMask name)

theorem ieBitsType_moved :
    ieBitsType ((s.tree.entry name).bits ||| portGen name) ≠ 0#32 := by
  rw [← ieBitsType_of_right, ieBitsRight_moved bits]
  exact bits.2

omit bits

/-- One step of the loop keeps the invariant for the entries that remain. -/
theorem Moving.moveEntry (moving : s.Moving (name :: remaining)) (inTree : name ∈ s.tree.names)
    (index : portIndex name ≠ 0) : (s.moveEntry name).Moving remaining := by
  by_cases free : (s.table (portIndex name)).bits = 0#32
  · rw [moveEntry_free free]
    refine ⟨⟨?_, fun other member => moving.bits other (Finset.mem_of_mem_erase member)⟩, ?_, ?_⟩
    · change s.treeTotal - 1 = (s.tree.names.erase name).card
      rw [Finset.card_erase_of_mem inTree, moving.total]
    · change ieBitsType ((s.setSlot (portIndex name) _).table 0).bits = 0#32
      rw [setSlot_table_of_ne index.symm]
      exact moving.head
    intro other member mem
    obtain ⟨ne, member⟩ := Finset.mem_erase.mp member
    obtain ⟨collision, gen⟩ := moving.behind other member mem
    change (_ ∨ ((s.setSlot (portIndex name) _).table (portIndex other)).bits &&& _ ≠ _) ∧
      (((s.setSlot (portIndex name) _).table (portIndex other)).bits = _ ∨
        ieBitsGen ((s.setSlot (portIndex name) _).table (portIndex other)).bits ≠ _)
    by_cases same : portIndex other = portIndex name
    · -- The slot was free, so that a tree entry of its index has not been looked at.
      rw [same, setSlot_table_self]
      rw [same, free, BitVec.zero_and] at collision
      have waits := collision.resolve_right (not_not_intro rfl)
      refine ⟨.inl (List.mem_of_ne_of_mem ne waits), .inr ?_⟩
      rw [ieBitsGen_moved (moving.bits name inTree)]
      exact fun gens => ne (name_ext same gens.symm)
    · rw [setSlot_table_of_ne same]
      exact ⟨collision.imp_left (List.mem_of_ne_of_mem ne), gen⟩
  · rw [moveEntry_taken free]
    refine ⟨⟨moving.total, moving.bits⟩, ?_, ?_⟩
    · rw [setSlot_table_of_ne index.symm]
      exact moving.head
    intro other member mem
    obtain ⟨collision, gen⟩ := moving.behind other member mem
    by_cases same : portIndex other = portIndex name
    · rw [same] at gen ⊢
      rw [setSlot_table_self]
      refine ⟨.inr (of_decide_eq_true ieBitsCollides_or_collision), .inr ?_⟩
      rw [ieBitsGen_or_collision]
      exact gen.resolve_left free
    · rw [setSlot_table_of_ne same]
      refine ⟨collision.imp_left fun waits => List.mem_of_ne_of_mem ?_ waits, gen⟩
      rintro rfl
      exact same rfl

/-- One step of the loop keeps the view. -/
theorem Moving.view_moveEntry (moving : s.Moving (name :: remaining))
    (inTree : name ∈ s.tree.names) (mem : portIndex name < s.tableSize) (other : ℕ) :
    (s.moveEntry name).view other = s.view other := by
  by_cases free : (s.table (portIndex name)).bits = 0#32
  · have bits := moving.bits name inTree
    rw [moveEntry_free free]
    by_cases same : portIndex other = portIndex name
    · have unused : ¬ s.SlotHolds other := by
        rintro ⟨-, type, -⟩
        rw [same, free] at type
        exact type rfl
      by_cases here : other = name
      · -- The entry itself is now found in its slot.
        subst here
        rw [view, if_pos, view, if_neg unused, if_pos inTree]
        · change some ((s.setSlot (portIndex other) _).table (portIndex other)).content = _
          rw [setSlot_table_self, IpcEntry.content, IpcEntry.content, ieBitsRight_moved bits]
          rw [ieBitsRight, bits.1]
        refine ⟨mem, ?_⟩
        change ieBitsType ((s.setSlot (portIndex other) _).table (portIndex other)).bits ≠ _ ∧
          ieBitsGen ((s.setSlot (portIndex other) _).table (portIndex other)).bits = _
        rw [setSlot_table_self]
        exact ⟨ieBitsType_moved bits, ieBitsGen_moved bits⟩
      · rw [view, if_neg, view, if_neg unused]
        · simp only [Finset.mem_erase, ne_eq, here, not_false_eq_true, true_and]
        rintro ⟨-, -, gen⟩
        change ieBitsGen ((s.setSlot (portIndex name) _).table (portIndex other)).bits = _ at gen
        rw [same, setSlot_table_self, ieBitsGen_moved bits] at gen
        exact here (name_ext same gen.symm)
    · refine view_congr rfl (setSlot_table_of_ne same _) ?_ rfl
      have ne : other ≠ name := fun eq => same (congrArg portIndex eq)
      exact ⟨Finset.mem_of_mem_erase, fun member => Finset.mem_erase.mpr ⟨ne, member⟩⟩
  · rw [moveEntry_taken free]
    by_cases same : portIndex other = portIndex name
    · have holds : (s.setSlot (portIndex name) { s.table (portIndex name) with
          bits := (s.table (portIndex name)).bits ||| ieBitsCollision }).SlotHolds other ↔
          s.SlotHolds other := by
        simp only [SlotHolds, same, setSlot_table_self, ieBitsType_or_collision,
          ieBitsGen_or_collision]
        rfl
      rw [view, view]
      simp only [holds, same, setSlot_table_self, IpcEntry.content, ieBitsRight_or_collision]
      rfl
    · exact view_congr rfl (setSlot_table_of_ne same _) Iff.rfl rfl

/-- The loop over a list of tree names with an index in the table. -/
theorem Moving.foldl (moving : s.Moving remaining) (nodup : remaining.Nodup)
    (inTree : ∀ name ∈ remaining, name ∈ s.tree.names)
    (mem : ∀ name ∈ remaining, portIndex name ≠ 0 ∧ portIndex name < s.tableSize) :
    (remaining.foldl IpcSpace.moveEntry s).Placed ∧
      (remaining.foldl IpcSpace.moveEntry s).tableSize = s.tableSize ∧
      (remaining.foldl IpcSpace.moveEntry s).tableNext = s.tableNext ∧
      ∀ name, (remaining.foldl IpcSpace.moveEntry s).view name = s.view name := by
  induction remaining generalizing s with
  | nil => exact ⟨moving.placed, rfl, rfl, fun _ => rfl⟩
  | cons first remaining ih =>
    have member := inTree first List.mem_cons_self
    obtain ⟨nonzero, below⟩ := mem first List.mem_cons_self
    obtain ⟨fresh, nodup⟩ := List.nodup_cons.mp nodup
    have still : ∀ name ∈ remaining, name ∈ (s.moveEntry first).tree.names := by
      intro name later
      have ne : name ≠ first := fun eq => fresh (eq ▸ later)
      rw [IpcSpace.moveEntry]
      split
      · exact inTree name (List.mem_cons_of_mem _ later)
      · exact Finset.mem_erase.mpr ⟨ne, inTree name (List.mem_cons_of_mem _ later)⟩
    obtain ⟨placed, size, next, views⟩ := ih (moving.moveEntry member nonzero) nodup still
      fun name later => ⟨(mem name (List.mem_cons_of_mem _ later)).1,
        (mem name (List.mem_cons_of_mem _ later)).2.trans_eq tableSize_moveEntry.symm⟩
    refine ⟨placed, size.trans tableSize_moveEntry, next.trans tableNext_moveEntry, fun name => ?_⟩
    rw [List.foldl_cons, views name, moving.view_moveEntry member below]

end Moves

/-! ## The new table -/

section Extend

variable {s : IpcSpace} {index name : ℕ}

/-- A slot that is not in use can be changed to another that is not. -/
theorem Placed.setSlot_unused (placed : s.Placed) (index : ℕ) {e : IpcEntry}
    (unused : ieBitsType e.bits = 0#32)
    (was : ieBitsType (s.table index).bits = 0#32)
    (behind : ∀ name ∈ s.tree.names, portIndex name < s.tableSize → portIndex name = index →
      e.bits = (s.table index).bits) :
    (s.setSlot index e).Placed ∧ ∀ name, (s.setSlot index e).view name = s.view name := by
  refine ⟨⟨⟨placed.total, placed.bits⟩, ?_, ?_⟩, fun name => ?_⟩
  · by_cases here : index = 0
    · subst here
      rw [setSlot_table_self]
      exact unused
    · rw [setSlot_table_of_ne (Ne.symm here)]
      exact placed.head
  · intro name inTree mem
    by_cases here : portIndex name = index
    · have bits := placed.behind name inTree mem
      rw [here, setSlot_table_self, behind name inTree mem here]
      rw [here] at bits
      exact bits
    · rw [setSlot_table_of_ne here]
      exact placed.behind name inTree mem
  · by_cases here : portIndex name = index
    · subst here
      rw [view, view, if_neg, if_neg (fun holds : s.SlotHolds name => holds.2.1 was)]
      · rfl
      · rintro ⟨-, type, -⟩
        rw [setSlot_table_self] at type
        exact type unused
    · exact view_congr rfl (setSlot_table_of_ne here _) Iff.rfl rfl

/-- Chaining the free slots keeps the entries where they are. -/
theorem Placed.freeSlots (placed : s.Placed) (count i free : ℕ) (above : count < i) :
    (s.freeSlots count i free).1.Placed ∧ (s.freeSlots count i free).1.tableSize = s.tableSize ∧
      (s.freeSlots count i free).1.tableNext = s.tableNext ∧
      ∀ name, (s.freeSlots count i free).1.view name = s.view name := by
  induction count generalizing s i free with
  | zero => exact ⟨placed, rfl, rfl, fun _ => rfl⟩
  | succ count ih =>
    rw [IpcSpace.freeSlots]
    split
    next unused =>
      obtain ⟨placed', views⟩ := placed.setSlot_unused (i - 1)
        (e := { s.table (i - 1) with bits := ieBitsGenMask, index := free })
        (by decide : ieBitsType ieBitsGenMask = 0#32) (by rw [unused]; decide) (by
          intro name inTree mem here
          have collision := (placed.behind name inTree mem).2
          rw [here, unused, BitVec.zero_and] at collision
          exact absurd rfl collision)
      obtain ⟨again, size, next, views'⟩ := ih placed' (i - 1) (i - 1) (by omega)
      exact ⟨again, size, next, fun name => (views' name).trans (views name)⟩
    · exact ih placed (i - 1) free (by omega)

/-- The names that `ipc_entry_grow_table` looks at are those with an index in the new part. -/
theorem mem_namesBetween {low high : ℕ} : name ∈ s.namesBetween low high ↔
    name ∈ s.tree.names ∧ low ≤ portIndex name ∧ portIndex name < high := by
  rw [namesBetween, Finset.mem_sort, Finset.mem_filter, portMake_zero, portMake_zero, portIndex_eq]
  have bounds : (low * 256 ≤ name ∧ name < high * 256) ↔
      (low ≤ name / 256 ∧ name / 256 < high) := by omega
  rw [bounds]

/-- The old table with an empty new part. -/
def clearedTable (s : IpcSpace) (osize size nits : ℕ) : IpcSpace :=
  { s with
    table := fun i => if osize ≤ i ∧ i < size then ⟨0#32, 0, 0⟩ else s.table i
    tableSize := size
    tableNext := nits }

theorem Placed.cleared (placed : s.Placed) {size : ℕ} (nits : ℕ) (pos : 0 < s.tableSize)
    (grows : s.tableSize ≤ size) :
    (s.clearedTable s.tableSize size nits).Moving (s.namesBetween s.tableSize size) ∧
      ∀ name, (s.clearedTable s.tableSize size nits).view name = s.view name := by
  have old {i : ℕ} (below : i < s.tableSize) :
      (s.clearedTable s.tableSize size nits).table i = s.table i :=
    if_neg fun new => absurd new.1 (not_le.mpr below)
  have new {i : ℕ} (above : s.tableSize ≤ i) (below : i < size) :
      (s.clearedTable s.tableSize size nits).table i = ⟨0#32, 0, 0⟩ := if_pos ⟨above, below⟩
  refine ⟨⟨⟨placed.total, placed.bits⟩, ?_, fun name inTree mem => ?_⟩, fun name => ?_⟩
  · rw [old pos]
    exact placed.head
  · rcases lt_or_ge (portIndex name) s.tableSize with below | above
    · rw [old below]
      obtain ⟨gen, collision⟩ := placed.behind name inTree below
      exact ⟨.inr collision, .inr gen⟩
    · rw [new above mem]
      exact ⟨.inl (mem_namesBetween.mpr ⟨inTree, above, mem⟩), .inl rfl⟩
  · rcases lt_or_ge (portIndex name) s.tableSize with below | above
    · -- An old slot is found through the larger size as it was through the smaller one.
      have holds : (s.clearedTable s.tableSize size nits).SlotHolds name ↔
          portIndex name < size ∧ s.SlotHolds name := by
        rw [SlotHolds, SlotHolds, old below]
        exact ⟨fun ⟨mem, rest⟩ => ⟨mem, below, rest⟩, fun ⟨mem, _, rest⟩ => ⟨mem, rest⟩⟩
      have larger : portIndex name < size := below.trans_le grows
      simp only [view, holds, larger, true_and, old below]
      rfl
    · rw [view, if_neg, view, if_neg (fun holds : s.SlotHolds name => absurd holds.1
        (not_lt.mpr above))]
      · rfl
      · rintro ⟨mem, type, -⟩
        rw [new above mem] at type
        exact type (by decide)

theorem extendTable_eq (s : IpcSpace) (osize size nsize nits : ℕ) :
    s.extendTable osize size nsize nits = let cleared := s.clearedTable osize size nits
      let moved :=
        if cleared.treeTotal > 0 then
          { (cleared.namesBetween osize size).foldl IpcSpace.moveEntry cleared with
            treeSmall := countSmall (cleared.namesBetween size nsize) 0 0 }
        else cleared
      let freed := moved.freeSlots (size - osize) size (moved.table 0).index
      freed.1.setSlot 0 { freed.1.table 0 with index := freed.2 } := rfl

/-- The entries of the tree are moved, if there are any. -/
theorem Placed.moved (placed : s.Placed) {size nits small : ℕ} (pos : 0 < s.tableSize)
    (grows : s.tableSize ≤ size) {moved : IpcSpace}
    (eq : moved = if (s.clearedTable s.tableSize size nits).treeTotal > 0 then
      { (s.namesBetween s.tableSize size).foldl IpcSpace.moveEntry
          (s.clearedTable s.tableSize size nits) with treeSmall := small }
      else s.clearedTable s.tableSize size nits) :
    moved.Placed ∧ moved.tableSize = size ∧ moved.tableNext = nits ∧
      ∀ name, moved.view name = s.view name := by
  obtain ⟨moving, views⟩ := placed.cleared nits pos grows
  split at eq
  next =>
    obtain ⟨after, sizes, next, views'⟩ := moving.foldl (Finset.sort_nodup _ _)
      (fun name mem => (mem_namesBetween.mp mem).1) fun name mem =>
      ⟨(pos.trans_le (mem_namesBetween.mp mem).2.1).ne', (mem_namesBetween.mp mem).2.2⟩
    subst eq
    exact ⟨⟨⟨after.total, after.bits⟩, after.head, after.behind⟩, sizes, next,
      fun name => (views' name).trans (views name)⟩
  next none =>
    have empty : s.tree.names = ∅ := by
      have total : s.treeTotal = 0 := Nat.eq_zero_of_not_pos none
      rw [placed.total] at total
      exact Finset.card_eq_zero.mp total
    subst eq
    refine ⟨⟨moving.toTreeInv, moving.head, fun name inTree => ?_⟩, rfl, rfl, views⟩
    change name ∈ s.tree.names at inTree
    rw [empty] at inTree
    exact absurd inTree (Finset.notMem_empty name)

/-- The work on the new table keeps what lookup finds. -/
theorem Placed.extendTable (placed : s.Placed) {size : ℕ} (nsize nits : ℕ) (pos : 0 < s.tableSize)
    (grows : s.tableSize ≤ size) :
    (s.extendTable s.tableSize size nsize nits).Placed ∧
      (s.extendTable s.tableSize size nsize nits).tableSize = size ∧
      (s.extendTable s.tableSize size nsize nits).tableNext = nits ∧
      ∀ name, (s.extendTable s.tableSize size nsize nits).contents name = s.contents name := by
  rw [extendTable_eq]
  dsimp only
  generalize eq : (if (s.clearedTable s.tableSize size nits).treeTotal > 0 then _ else _) = moved
  obtain ⟨placed', sizes, next, views⟩ := placed.moved pos grows eq.symm
  obtain ⟨chained, sizes', next', views'⟩ := placed'.freeSlots (size - s.tableSize) size
    (moved.table 0).index (by omega)
  -- Last the head of the free list changes, in a slot that is not in use.
  obtain ⟨after, views''⟩ := chained.setSlot_unused 0
    (e := { (moved.freeSlots (size - s.tableSize) size (moved.table 0).index).1.table 0 with
      index := (moved.freeSlots (size - s.tableSize) size (moved.table 0).index).2 })
    chained.head chained.head fun _ _ _ _ => rfl
  refine ⟨after, sizes'.trans sizes, next'.trans next, fun name => ?_⟩
  rw [after.contents_eq, placed.contents_eq, views'', views', views]

end Extend

end IpcSpace

end Darwin.Ipc
