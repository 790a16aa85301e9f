import Darwin.Kern.Zalloc.Lookup

/-!
# Editing a free space

A free space is kept if its list is in order and its hints and its count belong to the list.  Each
way in which the allocator edits a list keeps the space, and says which addresses the list gains or
loses.

## Main results

* `trim_spec`: an element is trimmed off an entry.
* `add_spec`: a new region is added, of which a part may be lost.
-/

namespace Darwin.Kern.Zalloc

open List Darwin.Lib

/-- The lengths of the entries of a free space. -/
def Fits (grain limit n : ℕ) : Prop := 0 < n ∧ grain ∣ n ∧ n < limit

/-- An entry of a free space. -/
structure Entry (grain limit : ℕ) (r : Range) : Prop where
  fits : Fits grain limit r.size
  aligned : grain ∣ r.start
  below : r.stop < 4294967296

/-- The list in memory is in order, and the hints and the count belong to it. -/
structure Kept (mem : Memory) (space : FreeSpace) (grain limit : ℕ) (l : List Range) : Prop where
  linked : Linked mem space.entries l
  placed : Placed space.entries l
  entry : ∀ r ∈ l, Entry grain limit r
  hinted : Hinted space l
  count : space.numEntries = l.length

/-- What does not change about a free space. -/
structure Measured (space : FreeSpace) (grain limit : ℕ) : Prop where
  graded : Graded space (Fits grain limit)
  header : 16 ∣ grain
  limit_le : limit ≤ 4294967296

/-- Only the head of the list and words of these ranges have changed. -/
def Frame (mem mem' : Memory) (slot : ℕ) (rs : List Range) : Prop :=
  ∀ a, a ≠ slot → cover rs a = 0 → mem' a = mem a

section Pieces

variable {mem mem' mem'' : Memory} {space space' : FreeSpace} {slot grain limit a n : ℕ}
  {e : Range} {l l₁ l₂ rs : List Range}

theorem SameTable.measured (same : SameTable space space') (measured : Measured space grain limit) :
    Measured space' grain limit where
  graded := same.graded measured.graded
  header := measured.header
  limit_le := measured.limit_le

theorem Fits.big (fits : Fits grain limit n) (header : 16 ∣ grain) : 16 ≤ n :=
  Nat.le_of_dvd fits.1 (Nat.dvd_trans header fits.2.1)

theorem Frame.refl : Frame mem mem slot rs := fun _ _ _ => rfl

/-- A free space depends only on the head of its list and on the words of its entries. -/
theorem Kept.congr (kept : Kept mem space grain limit l)
    (head : mem' space.entries = mem space.entries)
    (same : ∀ a, 0 < cover l a → mem' a = mem a) : Kept mem' space grain limit l where
  linked := kept.linked.congr kept.placed head fun r inside a has =>
    same a (cover_pos_iff.mpr ⟨r, inside, has⟩)
  placed := kept.placed
  entry := kept.entry
  hinted := kept.hinted
  count := kept.count

theorem Placed.insert (placed : Placed slot (l₁ ++ l₂)) (big : 16 ≤ e.size) (positive : 0 < e.start)
    (outside : ¬ e.Has slot) (before : ∀ r ∈ l₁, r.stop ≤ e.start)
    (after : ∀ r ∈ l₂, e.stop ≤ r.start) : Placed slot (l₁ ++ e :: l₂) := by
  have each : ∀ {P : Range → Prop}, (∀ r ∈ l₁ ++ l₂, P r) → P e → ∀ r ∈ l₁ ++ e :: l₂, P r := by
    intro P others own r inside
    rcases mem_append.mp inside with front | back
    · exact others r (mem_append_left _ front)
    · rcases mem_cons.mp back with rfl | back
      · exact own
      · exact others r (mem_append_right _ back)
  refine ⟨each placed.big big, each placed.positive positive, ?_, each placed.outside outside⟩
  have order := placed.sorted
  rw [pairwise_append] at order
  rw [pairwise_append, pairwise_cons]
  refine ⟨order.1, ⟨after, order.2.1⟩, ?_⟩
  intro r front r' back
  rcases mem_cons.mp back with rfl | back
  · exact before r front
  · exact order.2.2 r front r' back

theorem forall_insert {P : Range → Prop} (others : ∀ r ∈ l₁ ++ l₂, P r) (own : P e) :
    ∀ r ∈ l₁ ++ e :: l₂, P r := by
  intro r inside
  rcases mem_append.mp inside with front | back
  · exact others r (mem_append_left _ front)
  · rcases mem_cons.mp back with rfl | back
    · exact own
    · exact others r (mem_append_right _ back)

theorem forall_remove {P : Range → Prop} (all : ∀ r ∈ l₁ ++ e :: l₂, P r) :
    ∀ r ∈ l₁ ++ l₂, P r := by
  intro r inside
  rcases mem_append.mp inside with front | back
  · exact all r (mem_append_left _ front)
  · exact all r (mem_append_right _ (mem_cons_of_mem _ back))

variable (placed : Placed slot (l₁ ++ e :: l₂))

include placed

theorem Placed.remove : Placed slot (l₁ ++ l₂) :=
  placed.sublist (List.Sublist.append_left (sublist_cons_self e l₂) l₁)

theorem Placed.stop_le {r : Range} (front : r ∈ l₁) :
    r.stop ≤ e.start :=
  (pairwise_append.mp placed.sorted).2.2 r front e mem_cons_self

theorem Placed.le_start {r : Range} (back : r ∈ l₂) :
    e.stop ≤ r.start :=
  (pairwise_cons.mp (pairwise_append.mp placed.sorted).2.1).1 r back

omit placed

/-- No address lies in two entries. -/
theorem Placed.cover_le (placed : Placed slot l) (x : ℕ) : cover l x ≤ 1 := by
  have sorted := placed.sorted
  clear placed
  induction l with
  | nil => exact Nat.zero_le _
  | cons r l ih =>
    rw [pairwise_cons] at sorted
    rw [cover_cons, cover_single]
    split_ifs with here
    · have none_later : cover l x = 0 := by
        rw [cover_eq_zero_iff]
        rintro r' inside ⟨lower, -⟩
        have order := sorted.1 r' inside
        have upper := here.2
        omega
      omega
    · have rest := ih sorted.2
      omega

/-- An address that no entry has is none of the places of the list. -/
theorem Placed.off (placed : Placed slot (l₁ ++ l₂)) (off : a ≠ slot)
    (out : cover (l₁ ++ l₂) a = 0) :
    a ≠ slotAfter slot l₁ ∧ (firstOf l₂ ≠ 0 → a ≠ firstOf l₂ + 8) := by
  rw [cover_eq_zero_iff] at out
  constructor
  · rintro rfl
    rcases slotAfter_mem slot l₁ with same | ⟨r, inside, same⟩
    · exact off same
    have member := mem_append_left l₂ inside
    apply out r member
    rw [same]
    exact placed.header (n := 0) member (by decide)
  · rintro some_next rfl
    cases l₂ with
    | nil => exact some_next rfl
    | cons r l =>
      have member : r ∈ l₁ ++ r :: l := mem_append_cons_self
      exact out r member (placed.header member (by decide))

theorem link_frame (placed : Placed slot (l₁ ++ l₂)) (big : 16 ≤ e.size) (length : ℕ) :
    Frame mem (mem.link (slotAfter slot l₁) e.start length (firstOf l₂)) slot
      (l₁ ++ l₂ ++ [e]) := by
  intro a off out
  rw [cover_append] at out
  obtain ⟨not_slot, not_back⟩ := placed.off off (Nat.eq_zero_of_add_eq_zero_right out)
  have not_own := cover_eq_zero_iff.mp (Nat.eq_zero_of_add_eq_zero_left out) e
    (mem_singleton_self e)
  unfold Range.Has Range.stop at not_own
  exact link_other not_slot (by omega) (by omega) (by omega) not_back

theorem unlink_frame (placed : Placed slot (l₁ ++ l₂)) :
    Frame mem (mem.unlink (slotAfter slot l₁) (firstOf l₂)) slot (l₁ ++ l₂) := by
  intro a off out
  obtain ⟨not_slot, not_back⟩ := placed.off off out
  exact unlink_other not_slot not_back

theorem sub32_eq {m n : ℕ} (le : n ≤ m) (small : m < 4294967296) : sub32 m n = m - n := by
  unfold sub32
  omega

end Pieces

section Trim

variable {mem mem' : Memory} {space space' : FreeSpace} {grain limit size : ℕ}
  {e : Range} {l₁ l₂ : List Range}

/-- The rest of an entry that lost its front. -/
theorem Entry.rest (entry : Entry grain limit e) (fit : Fits grain limit size)
    (less : size < e.size) : Entry grain limit ⟨e.start + size, e.size - size⟩ where
  fits := ⟨Nat.sub_pos_of_lt less, Nat.dvd_sub entry.fits.2.1 fit.2.1,
    Nat.lt_of_le_of_lt (Nat.sub_le _ _) entry.fits.2.2⟩
  aligned := Nat.dvd_add entry.aligned fit.2.1
  below := by
    have below := entry.below
    unfold Range.stop at below ⊢
    dsimp only
    omega

theorem cover_trim (le : size ≤ e.size) (x : ℕ) :
    cover [⟨e.start, size⟩] x + cover [⟨e.start + size, e.size - size⟩] x = cover [e] x := by
  rw [cover_join]
  have same : size + (e.size - size) = e.size := by omega
  rw [same]

/-- An element is trimmed off the front of an entry that the hints have given up. -/
theorem trim_spec (measured : Measured space grain limit)
    (linked : Linked mem space.entries (l₁ ++ e :: l₂))
    (placed : Placed space.entries (l₁ ++ e :: l₂))
    (entry : ∀ r ∈ l₁ ++ e :: l₂, Entry grain limit r) (hinted : Hinted space (l₁ ++ l₂))
    (count : space.numEntries = (l₁ ++ e :: l₂).length) (fit : Fits grain limit size)
    (le : size ≤ e.size) (trim : trimEntry space mem e.start size = (mem', space')) :
    ∃ l, Kept mem' space' grain limit l ∧ SameTable space space' ∧
      (∀ x, cover l x + cover [⟨e.start, size⟩] x = cover (l₁ ++ e :: l₂) x) ∧
      Frame mem mem' space.entries (l₁ ++ e :: l₂) := by
  have member : e ∈ l₁ ++ e :: l₂ := mem_append_cons_self
  have own := entry e member
  obtain ⟨front, -, back, length, rest⟩ := linked_append.mp linked
  have others := forall_remove entry
  have shape : ∀ x, cover (l₁ ++ e :: l₂) x = cover l₁ x + cover [e] x + cover l₂ x := by
    intro x
    rw [cover_append, cover_cons, Nat.add_assoc]
  have small : e.size < 4294967296 := Nat.lt_of_lt_of_le own.fits.2.2 measured.limit_le
  rw [trimEntry, back, length, sub32_eq le small, rest.first] at trim
  split at trim
  case isTrue whole =>
    -- The lengths are multiples of the grain, so that nothing is left of the entry.
    have whole : size = e.size := by
      by_contra other
      have left := (own.rest fit (Nat.lt_of_le_of_ne le other)).fits.big measured.header
      exact absurd whole (Nat.not_lt.mpr left)
    cases trim
    refine ⟨l₁ ++ l₂, ⟨?_, placed.remove, others, hinted, ?_⟩, ⟨rfl, rfl, rfl, rfl, rfl⟩, ?_, ?_⟩
    · exact unlink_spec placed.remove front rest.ends
    · have count : space.numEntries = _ := count
      rw [length_append, length_cons] at count
      rw [length_append]
      dsimp only
      omega
    · intro x
      rw [shape, whole, cover_append]
      exact Nat.add_right_comm _ _ _
    intro a off out
    apply unlink_frame placed.remove a off
    rw [shape] at out
    rw [cover_append]
    omega
  case isFalse part =>
    have less : size < e.size := by
      unfold zoneMinAlloc at part
      omega
    have left := own.rest fit less
    have positive := placed.positive e member
    have placed' : Placed space.entries (l₁ ++ ⟨e.start + size, e.size - size⟩ :: l₂) := by
      apply placed.remove.insert (left.fits.big measured.header)
      · exact Nat.lt_of_lt_of_le positive (Nat.le_add_right _ _)
      · intro has
        apply placed.outside e member
        unfold Range.Has Range.stop at has ⊢
        dsimp only at has
        omega
      · intro r before
        exact Nat.le_trans (placed.stop_le before) (Nat.le_add_right _ _)
      intro r after
      have next := placed.le_start after
      unfold Range.stop at next ⊢
      dsimp only
      omega
    have linked' := link_spec placed' front rest.ends
    have put := hintPut_spec measured.graded hinted (e := ⟨e.start + size, e.size - size⟩)
      (fun r before => placed'.before before) (fun r after => placed'.after after) left.fits
    have length' := linked'.length (mem_append_cons_self)
    cases trim
    rw [hintInsert, length']
    obtain ⟨same, count', hinted'⟩ := put
    refine ⟨_, ⟨?_, ?_, forall_insert others left, hinted', ?_⟩, same, ?_, ?_⟩
    · rw [same.entries]
      exact linked'
    · rw [same.entries]
      exact placed'
    · rw [count', count, length_append, length_append]
      rfl
    · intro x
      have pieces := cover_trim le x
      rw [shape, cover_append, cover_cons _ l₂]
      omega
    · intro a off out
      rw [shape] at out
      have pieces := cover_trim le a
      apply link_frame placed.remove (e := ⟨e.start + size, e.size - size⟩)
        (left.fits.big measured.header) _ a off
      rw [cover_append, cover_append]
      omega

end Trim

/-! ## A new region -/

section Add

variable {mem mem' : Memory} {space space' : FreeSpace}
  {grain limit size newSpace spaceToAdd turns result : ℕ} {e : Range} {l l₁ l₂ : List Range}

/-- A new region that fits a free space and is none of its memory so far. -/
structure Region (slot : ℕ) (l : List Range) (grain limit : ℕ) (region : Range) : Prop where
  positive : 0 < region.start
  aligned : grain ∣ region.start
  whole : grain ∣ region.size
  size_le : region.size ≤ limit
  below : region.stop < 4294967296
  apart : ∀ r ∈ l, r.stop ≤ region.start ∨ region.stop ≤ r.start
  outside : ¬ region.Has slot

/-- Nothing of a new region is lost: an element takes the whole of it, or it lies above all entries,
or one of them ends where it starts. -/
def Lossless (l : List Range) (size newSpace spaceToAdd : ℕ) : Prop :=
  spaceToAdd = size ∨ (∀ r ∈ l, r.start < newSpace) ∨ ∃ r ∈ l, r.stop = newSpace

/-- What becomes of a free space to which a region is added: the element and the entries lie in what
there was, and make it up if nothing is lost. -/
structure Added (mem mem' : Memory) (space space' : FreeSpace) (grain limit : ℕ)
    (l : List Range) (size : ℕ) (region : Range) (result : ℕ) (l' : List Range) : Prop where
  kept : Kept mem' space' grain limit l'
  same : SameTable space space'
  positive : 0 < result
  aligned : grain ∣ result
  within : ∀ x, cover l' x + cover [⟨result, size⟩] x ≤ cover l x + cover [region] x
  exact : Lossless l size region.start region.size →
    ∀ x, cover l' x + cover [⟨result, size⟩] x = cover l x + cover [region] x
  frame : Frame mem mem' space.entries (l ++ [region])

variable (measured : Measured space grain limit)

include measured

/-- The rest of the region goes behind all entries. -/
theorem add_behind (kept : Kept mem space grain limit l)
    (region : Region space.entries l grain limit ⟨newSpace, spaceToAdd⟩)
    (fit : Fits grain limit size) (less : size < spaceToAdd) (above : ∀ r ∈ l, r.start < newSpace)
    (linked : mem.link (slotAfter space.entries l) (newSpace + size) (spaceToAdd - size) 0 = mem')
    (hints : hintInsert { space with numEntries := space.numEntries + 1 } mem' (newSpace + size) = space') :
    ∃ l', Added mem mem' space space' grain limit l size ⟨newSpace, spaceToAdd⟩ newSpace l' := by
  have left : Entry grain limit ⟨newSpace + size, spaceToAdd - size⟩ := by
    refine ⟨⟨Nat.sub_pos_of_lt less, Nat.dvd_sub region.whole fit.2.1, ?_⟩,
      Nat.dvd_add region.aligned fit.2.1, ?_⟩
    · have size_le := region.size_le
      have positive := fit.1
      dsimp only at size_le ⊢
      omega
    · have below := region.below
      unfold Range.stop at below ⊢
      dsimp only at below ⊢
      omega
  have placed : Placed space.entries (l ++ [⟨newSpace + size, spaceToAdd - size⟩]) := by
    have placed : Placed space.entries (l ++ []) := (append_nil l).symm ▸ kept.placed
    apply placed.insert (left.fits.big measured.header)
    · exact Nat.lt_of_lt_of_le region.positive (Nat.le_add_right _ _)
    · intro has
      apply region.outside
      unfold Range.Has Range.stop at has ⊢
      dsimp only at has ⊢
      omega
    · intro r inside
      rcases region.apart r inside with below | ends_late
      · exact Nat.le_trans below (Nat.le_add_right _ _)
      have first := above r inside
      unfold Range.stop at ends_late
      dsimp only at ends_late
      omega
    · intro r inside
      cases inside
  have begins : Begins mem space.entries l :=
    (linked_append.mp ((append_nil l).symm ▸ kept.linked)).1
  have linked' : Linked mem' space.entries (l ++ [⟨newSpace + size, spaceToAdd - size⟩]) := by
    rw [← linked]
    exact @link_spec _ _ _ l [] placed begins trivial
  have hinted : Hinted { space with numEntries := space.numEntries + 1 } (l ++ []) :=
    (append_nil l).symm ▸ kept.hinted
  have table : SameTable space { space with numEntries := space.numEntries + 1 } :=
    ⟨rfl, rfl, rfl, rfl, rfl⟩
  have put := hintPut_spec (table.graded measured.graded) hinted
    (e := ⟨newSpace + size, spaceToAdd - size⟩) (fun r before => placed.before before)
    (forall_mem_nil _) left.fits
  have length := linked'.length (mem_append_cons_self)
  rw [hintInsert, length] at hints
  rw [hints] at put
  obtain ⟨same, count, hinted'⟩ := put
  have cover_eq : ∀ x, cover (l ++ [⟨newSpace + size, spaceToAdd - size⟩]) x +
      cover [⟨newSpace, size⟩] x = cover l x + cover [⟨newSpace, spaceToAdd⟩] x := by
    intro x
    have pieces := cover_trim (e := ⟨newSpace, spaceToAdd⟩) (Nat.le_of_lt less) x
    rw [cover_append]
    dsimp only at pieces
    omega
  refine ⟨_, ⟨?_, ?_, @forall_insert _ l [] _ ?_ left, hinted', ?_⟩, table.trans same,
    region.positive, region.aligned, fun x => Nat.le_of_eq (cover_eq x), fun _ => cover_eq, ?_⟩
  · rw [same.entries]
    exact linked'
  · rw [same.entries]
    exact placed
  · rw [append_nil]
    exact kept.entry
  · rw [count, length_append]
    have count := kept.count
    dsimp only at count ⊢
    rw [length_singleton]
    omega
  · intro a off out
    rw [← linked]
    have placed' : Placed space.entries (l ++ []) := (append_nil l).symm ▸ kept.placed
    apply link_frame placed' (e := ⟨newSpace + size, spaceToAdd - size⟩)
      (left.fits.big measured.header) _ a off
    have pieces := cover_trim (e := ⟨newSpace, spaceToAdd⟩) (Nat.le_of_lt less) a
    rw [cover_append] at out
    rw [cover_append, cover_append, cover_nil]
    dsimp only at pieces
    omega

/-- The region is joined to the entry that ends where it starts. -/
theorem add_join (kept : Kept mem space grain limit (l₁ ++ e :: l₂))
    (region : Region space.entries (l₁ ++ e :: l₂) grain limit ⟨newSpace, spaceToAdd⟩)
    (fit : Fits grain limit size) (small : e.size < size) (le : size ≤ spaceToAdd)
    (touch : e.stop = newSpace) {space₁ : FreeSpace}
    (drop : hintDrop turns space mem e.start e.size e.start = some space₁)
    (linked : mem.link (slotAfter space.entries l₁) (e.start + size) (e.size + spaceToAdd - size) (firstOf l₂) = mem')
    (hints : hintInsert space₁ mem' (e.start + size) = space') :
    ∃ l', Added mem mem' space space' grain limit (l₁ ++ e :: l₂) size ⟨newSpace, spaceToAdd⟩
      e.start l' := by
  have member : e ∈ l₁ ++ e :: l₂ := mem_append_cons_self
  have own := kept.entry e member
  have placed := kept.placed
  have below := region.below
  have size_le := region.size_le
  obtain ⟨front, -, -, -, rest⟩ := linked_append.mp kept.linked
  unfold Range.stop at touch below
  dsimp only at below size_le
  have left : Entry grain limit ⟨e.start + size, e.size + spaceToAdd - size⟩ := by
    have positive := own.fits.1
    refine ⟨⟨by dsimp only; omega, Nat.dvd_sub (Nat.dvd_add own.fits.2.1 region.whole) fit.2.1,
      by dsimp only; omega⟩, Nat.dvd_add own.aligned fit.2.1, ?_⟩
    unfold Range.stop
    dsimp only
    omega
  have placed' :
      Placed space.entries (l₁ ++ ⟨e.start + size, e.size + spaceToAdd - size⟩ :: l₂) := by
    apply placed.remove.insert (left.fits.big measured.header)
    · exact Nat.lt_of_lt_of_le (placed.positive e member) (Nat.le_add_right _ _)
    · intro has
      apply region.outside
      unfold Range.Has Range.stop at has ⊢
      dsimp only at has ⊢
      omega
    · intro r before
      exact Nat.le_trans (placed.stop_le before) (Nat.le_add_right _ _)
    intro r after
    have next := placed.le_start after
    have big := placed.big r (mem_append_right _ (mem_cons_of_mem _ after))
    have apart := region.apart r (mem_append_right _ (mem_cons_of_mem _ after))
    unfold Range.stop at next apart ⊢
    dsimp only at apart ⊢
    omega
  have linked' : Linked mem' space.entries
      (l₁ ++ ⟨e.start + size, e.size + spaceToAdd - size⟩ :: l₂) := by
    rw [← linked]
    exact link_spec placed' front rest.ends
  have behind : ∀ r ∈ l₂, r ∈ l₁ ++ e :: l₂ := fun r inside =>
    mem_append_right _ (mem_cons_of_mem _ inside)
  obtain ⟨same₁, count₁, hinted₁⟩ := hintDrop_spec measured.graded kept.hinted
    (fun r inside => Nat.ne_of_lt (placed.before inside).2) rest
    (fun r inside => placed.positive r (behind r inside))
    (fun r inside => (kept.entry r (behind r inside)).fits) own.fits drop
  have put := hintPut_spec (same₁.graded measured.graded) hinted₁
    (e := ⟨e.start + size, e.size + spaceToAdd - size⟩) (fun r before => placed'.before before)
    (fun r after => placed'.after after) left.fits
  have length := linked'.length (mem_append_cons_self)
  rw [hintInsert, length] at hints
  rw [hints] at put
  obtain ⟨same, count, hinted'⟩ := put
  have pieces : ∀ x, cover [⟨e.start, size⟩] x +
      cover [⟨e.start + size, e.size + spaceToAdd - size⟩] x =
        cover [e] x + cover [⟨newSpace, spaceToAdd⟩] x := by
    intro x
    have joined := cover_join e.start e.size spaceToAdd x
    rw [← touch, joined]
    exact cover_trim (e := ⟨e.start, e.size + spaceToAdd⟩) (by dsimp only; omega) x
  have cover_eq : ∀ x, cover (l₁ ++ ⟨e.start + size, e.size + spaceToAdd - size⟩ :: l₂) x +
      cover [⟨e.start, size⟩] x =
        cover (l₁ ++ e :: l₂) x + cover [⟨newSpace, spaceToAdd⟩] x := by
    intro x
    have pieces := pieces x
    rw [cover_append, cover_append, cover_cons _ l₂, cover_cons e l₂]
    omega
  refine ⟨_, ⟨?_, ?_, forall_insert (forall_remove kept.entry) left, hinted', ?_⟩,
    same₁.trans same, placed.positive e member, own.aligned,
    fun x => Nat.le_of_eq (cover_eq x), fun _ => cover_eq, ?_⟩
  · rw [same.entries, same₁.entries]
    exact linked'
  · rw [same.entries, same₁.entries]
    exact placed'
  · rw [count, count₁, kept.count, length_append, length_append]
    rfl
  intro a off out
  rw [← linked]
  apply link_frame placed.remove (e := ⟨e.start + size, e.size + spaceToAdd - size⟩)
    (left.fits.big measured.header) _ a off
  have pieces := pieces a
  rw [cover_append, cover_append, cover_cons e l₂] at out
  rw [cover_append, cover_append]
  omega

/-- `zone_free_space_add`, where no entry is large enough. -/
theorem add_spec (kept : Kept mem space grain limit l)
    (region : Region space.entries l grain limit ⟨newSpace, spaceToAdd⟩)
    (fit : Fits grain limit size) (small : ∀ r ∈ l, r.size < size) (le : size ≤ spaceToAdd)
    (added : zoneFreeSpaceAdd turns space mem size newSpace spaceToAdd = some (result, mem', space')) :
    ∃ l', Added mem mem' space space' grain limit l size ⟨newSpace, spaceToAdd⟩ result l' := by
  have below := region.below
  unfold Range.stop at below
  dsimp only at below
  -- Whatever happens to the rest, the element is the front of the region.
  have unchanged : (Lossless l size newSpace spaceToAdd → spaceToAdd = size) →
      Added mem mem space space grain limit l size ⟨newSpace, spaceToAdd⟩ newSpace l := by
    intro whole
    have pieces := cover_trim (e := ⟨newSpace, spaceToAdd⟩) le
    refine ⟨kept, .refl, region.positive, region.aligned, ?_, ?_, .refl⟩
    · intro x
      have pieces := pieces x
      dsimp only at pieces
      omega
    · intro lossless x
      rw [whole lossless]
  rw [zoneFreeSpaceAdd] at added
  dsimp only at added
  split at added
  · cases added
  rename_i last searched
  obtain ⟨l₁, l₂, rfl, rfl, pointer, passed, stopped⟩ :=
    walk_spec kept.linked kept.placed.positive searched
  rw [pointer, sub32_eq le (by omega)] at added
  cases l₂ with
  | nil =>
    have above : ∀ r ∈ l₁ ++ [], r.start < newSpace := by
      intro r inside
      rw [append_nil] at inside
      have goes := passed r inside
      rw [Bool.and_eq_true] at goes
      exact of_decide_eq_true goes.1
    have null : firstOf [] = 0 := rfl
    rw [null, if_pos (.inl rfl)] at added
    split at added
    case isTrue some_left =>
      rw [if_neg (fun no => no rfl), pointer] at added
      obtain ⟨rfl, pair⟩ := Prod.mk.inj (Option.some.inj added)
      obtain ⟨memory, table⟩ := Prod.mk.inj pair
      rw [memory] at table
      have less : size < spaceToAdd := by
        unfold zoneMinAlloc at some_left
        omega
      have memory : mem.link (slotAfter space.entries (l₁ ++ [])) (newSpace + size)
          (spaceToAdd - size) 0 = mem' := by
        rw [append_nil]
        exact memory
      exact add_behind measured kept region fit less above memory table
    case isFalse none_left =>
      cases added
      refine ⟨_, unchanged fun _ => ?_⟩
      by_contra other
      have rest : Fits grain (spaceToAdd + 1) (spaceToAdd - size) :=
        ⟨by omega, Nat.dvd_sub region.whole fit.2.1, by omega⟩
      exact none_left (rest.big measured.header)
  | cons e l₂ =>
    have member : e ∈ l₁ ++ e :: l₂ := mem_append_cons_self
    have positive := kept.placed.positive e member
    have length : lengthOf mem e.start = e.size := kept.linked.length member
    have first : firstOf (e :: l₂) = e.start := rfl
    have stays : ¬ (e.start < newSpace ∧ e.start + e.size ≠ newSpace) := by
      rintro ⟨lower, gap⟩
      have stays := stopped e l₂ rfl
      rw [length] at stays
      have goes : (decide (e.start < newSpace) && decide (e.start + e.size ≠ newSpace)) = true := by
        rw [decide_eq_true lower, decide_eq_true gap]
        rfl
      rw [goes] at stays
      cases stays
    rw [first, length, if_neg (by omega)] at added
    split at added
    case isTrue touch =>
      have rest : Linked mem e.start l₂ := (linked_append.mp kept.linked).2.2.2.2
      rw [hintDelete, length, rest.first] at added
      split at added
      · cases added
      rename_i space₁ drop
      rw [sub32_eq (by omega) (by omega)] at added
      obtain ⟨rfl, pair⟩ := Prod.mk.inj (Option.some.inj added)
      obtain ⟨memory, table⟩ := Prod.mk.inj pair
      rw [memory] at table
      exact add_join measured kept region fit (small e member) le touch drop memory table
    case isFalse gap =>
      cases added
      refine ⟨_, unchanged ?_⟩
      rintro (whole | all_below | ⟨r, inside, touch⟩)
      · exact whole
      · have lower := all_below e member
        omega
      exfalso
      unfold Range.stop at touch
      rcases mem_append.mp inside with before | behind
      · have goes := passed r before
        rw [Bool.and_eq_true, kept.linked.length inside] at goes
        exact of_decide_eq_true goes.2 touch
      rcases mem_cons.mp behind with rfl | behind
      · exact gap touch
      · have after := kept.placed.after behind
        omega

end Add

end Darwin.Kern.Zalloc
