import Darwin.Kern.Zalloc.Space

/-!
# Giving memory back

Elements of a zone go back to its free space, where they are joined to the entries that they touch.

## Main results

* `collect_spec`: a turn of the loop of `zone_collect`.
-/

namespace Darwin.Kern.Zalloc

open List Darwin.Lib Option

section Collect

variable {mem mem' : Memory} {space space' : FreeSpace}
  {slot grain limit turns last last' elem elemSize n : ℕ} {a b c e : Range}
  {l p t k₁ k₂ l₁ l₂ : List Range}

/-- An element that may go back to a free space. -/
structure Element (slot : ℕ) (l : List Range) (grain limit : ℕ) (e : Range) : Prop where
  entry : Entry grain limit e
  positive : 0 < e.start
  apart : ∀ r ∈ l, r.stop ≤ e.start ∨ e.stop ≤ r.start
  outside : ¬ e.Has slot

/-- What becomes of a free space that an element goes back to: `k₁` are the entries that the search
for the next element need not see again. -/
structure Collected (mem mem' : Memory) (space space' : FreeSpace) (grain limit : ℕ)
    (l : List Range) (e : Range) (k₁ k₂ : List Range) : Prop where
  kept : Kept mem' space' grain limit (k₁ ++ k₂)
  same : SameTable space space'
  passed : ∀ r ∈ k₁, r.stop ≤ e.start
  covers : ∀ x, cover (k₁ ++ k₂) x = cover l x + cover [e] x
  frame : Frame mem mem' space.entries (l ++ [e])

theorem Entry.joined (first : Entry grain limit a) (second : Entry grain limit b)
    (touch : a.stop = b.start) (wide : limit = 4294967296) :
    Entry grain limit ⟨a.start, a.size + b.size⟩ := by
  have below := second.below
  have positive := first.fits.1
  unfold Range.stop at touch below
  refine ⟨⟨Nat.add_pos_left positive _, Nat.dvd_add first.fits.2.1 second.fits.2.1, ?_⟩,
    first.aligned, ?_⟩
  · dsimp only
    omega
  · unfold Range.stop
    dsimp only
    omega

theorem cover_touch (touch : a.stop = b.start) (x : ℕ) :
    cover [⟨a.start, a.size + b.size⟩] x = cover [a] x + cover [b] x := by
  have joined := cover_join a.start a.size b.size x
  have second : Range.mk (a.start + a.size) b.size = b := by
    ext
    · exact touch
    · rfl
  rw [second] at joined
  exact joined.symm

theorem setLength_frame (member : c ∈ l) (placed : Placed slot l) :
    Frame mem (mem.setLength c.start n) slot l := by
  intro x off out
  apply Memory.set_other
  rintro rfl
  exact cover_eq_zero_iff.mp out c member (placed.header member (by decide))

/-- An entry that covers what the entry `c` and the element cover takes the place of `c`. -/
theorem Placed.widen (placed : Placed slot (p ++ c :: t)) (outside : ¬ e.Has slot)
    (pieces : ∀ x, cover [a] x = cover [c] x + cover [e] x) (big : 16 ≤ a.size)
    (positive : 0 < a.start) (passed : ∀ r ∈ p, r.stop ≤ a.start)
    (above : ∀ r ∈ t, a.stop ≤ r.start) : Placed slot (p ++ a :: t) := by
  apply placed.remove.insert big positive _ passed above
  intro has
  have at_slot := pieces slot
  rw [cover_single, if_pos has, cover_single, cover_single, if_neg outside,
    if_neg (placed.outside c mem_append_cons_self)] at at_slot
  cases at_slot

/-- The cover of the entries, where one of them takes in an element. -/
theorem cover_widen (pieces : ∀ x, cover [a] x = cover [c] x + cover [e] x) (x : ℕ) :
    cover (p ++ a :: t) x = cover (p ++ c :: t) x + cover [e] x := by
  have pieces := pieces x
  rw [cover_append, cover_append, cover_cons a, cover_cons c]
  omega

variable (measured : Measured space grain limit)

include measured

/-- The element becomes an entry of its own. -/
theorem collect_insert (kept : Kept mem space grain limit (p ++ t))
    (element : Element space.entries (p ++ t) grain limit e)
    (passed : ∀ r ∈ p, r.stop ≤ e.start) (above : ∀ r ∈ t, e.stop ≤ r.start)
    (linked : mem.link (slotAfter space.entries p) e.start e.size (firstOf t) = mem')
    (hints : hintInsert { space with numEntries := space.numEntries + 1 } mem' e.start = space') :
    Collected mem mem' space space' grain limit (p ++ t) e p (e :: t) := by
  have big := element.entry.fits.big measured.header
  have placed : Placed space.entries (p ++ e :: t) :=
    kept.placed.insert big element.positive element.outside passed above
  obtain ⟨front, rest⟩ := linked_append.mp kept.linked
  have linked' : Linked mem' space.entries (p ++ e :: t) := by
    rw [← linked]
    exact link_spec placed front rest.ends
  have table : SameTable space { space with numEntries := space.numEntries + 1 } :=
    ⟨rfl, rfl, rfl, rfl, rfl⟩
  have put := hintPut_spec (table.graded measured.graded) (kept.hinted.withNum _) (e := e)
    (fun r before => placed.before before) (fun r after => placed.after after) element.entry.fits
  have length := linked'.length (mem_append_cons_self)
  rw [hintInsert, length] at hints
  rw [hints] at put
  obtain ⟨same, count, hinted⟩ := put
  refine ⟨⟨?_, ?_, forall_insert kept.entry element.entry, hinted, ?_⟩, table.trans same, passed,
    ?_, ?_⟩
  · rw [same.entries]
    exact linked'
  · rw [same.entries]
    exact placed
  · have count_old := kept.count
    rw [length_append] at count_old
    rw [count, length_append, length_cons]
    dsimp only
    omega
  · intro x
    rw [cover_append, cover_append, cover_cons e t]
    omega
  · rw [← linked]
    exact link_frame kept.placed big _

variable (wide : limit = 4294967296)

include wide

variable (kept : Kept mem space grain limit (p ++ c :: t))
  (element : Element space.entries (p ++ c :: t) grain limit e)

include kept element

/-- The element is joined to the entry behind it. -/
theorem collect_prepend (passed : ∀ r ∈ p, r.stop ≤ e.start) (touch : e.stop = c.start)
    (linked : mem.link (slotAfter space.entries p) e.start (c.size + e.size) (firstOf t) = mem')
    (hints : hintPrepend turns space mem' e.start c.size c.start = some space') :
    Collected mem mem' space space' grain limit (p ++ c :: t) e p
      (⟨e.start, c.size + e.size⟩ :: t) := by
  have member : c ∈ p ++ c :: t := mem_append_cons_self
  have placed := kept.placed
  have joined : Entry grain limit ⟨e.start, c.size + e.size⟩ := by
    rw [Nat.add_comm]
    exact element.entry.joined (kept.entry c member) touch wide
  have pieces : ∀ x, cover [⟨e.start, c.size + e.size⟩] x = cover [c] x + cover [e] x := by
    intro x
    rw [Nat.add_comm c.size, Nat.add_comm (cover [c] x)]
    exact cover_touch touch x
  have big := joined.fits.big measured.header
  have placed' : Placed space.entries (p ++ ⟨e.start, c.size + e.size⟩ :: t) := by
    apply placed.widen element.outside pieces big element.positive passed
    intro r after
    have next := placed.le_start after
    unfold Range.stop at touch next ⊢
    dsimp only
    omega
  obtain ⟨front, -, -, -, rest⟩ := linked_append.mp kept.linked
  have linked' : Linked mem' space.entries (p ++ ⟨e.start, c.size + e.size⟩ :: t) := by
    rw [← linked]
    exact link_spec placed' front rest.ends
  have grown : e.start ≤ c.start := by
    unfold Range.stop at touch
    omega
  have rest' : Linked mem' e.start t := (linked_append.mp linked').2.2.2.2
  obtain ⟨same, count, hinted⟩ := hintPrepend_spec (e := ⟨e.start, c.size + e.size⟩)
    measured.graded kept.hinted (fun r before => placed'.before before) grown
    (fun r after => placed.after after)
    (linked'.length (mem_append_cons_self)) rest'
    (fun r after => (kept.entry r (mem_append_right _ (mem_cons_of_mem _ after))).fits)
    (kept.entry c member).fits joined.fits hints
  refine ⟨⟨?_, ?_, forall_insert (forall_remove kept.entry) joined, hinted, ?_⟩, same, passed,
    cover_widen pieces, ?_⟩
  · rw [same.entries]
    exact linked'
  · rw [same.entries]
    exact placed'
  · rw [count, kept.count, length_append, length_append]
    rfl
  intro x off out
  have pieces := pieces x
  rw [← linked]
  apply link_frame placed.remove (e := ⟨e.start, c.size + e.size⟩) big _ x off
  rw [cover_append, cover_append, cover_cons c t] at out
  rw [cover_append, cover_append]
  omega

/-- The element is joined to the entry before it. -/
theorem collect_append (touch : c.stop = e.start) (gap : ∀ r ∈ t, e.stop ≤ r.start)
    (memory : mem.setLength c.start (c.size + e.size) = mem')
    (hints : hintAppend turns space mem' c.start c.size = some space') :
    Collected mem mem' space space' grain limit (p ++ c :: t) e p
      (⟨c.start, c.size + e.size⟩ :: t) := by
  have member : c ∈ p ++ c :: t := mem_append_cons_self
  have placed := kept.placed
  have joined : Entry grain limit ⟨c.start, c.size + e.size⟩ :=
    (kept.entry c member).joined element.entry touch wide
  have pieces : ∀ x, cover [⟨c.start, c.size + e.size⟩] x = cover [c] x + cover [e] x :=
    cover_touch touch
  have placed' : Placed space.entries (p ++ ⟨c.start, c.size + e.size⟩ :: t) := by
    apply placed.widen element.outside pieces (joined.fits.big measured.header)
      (placed.positive c member) (fun r before => placed.stop_le before)
    intro r after
    have next := gap r after
    unfold Range.stop at touch next ⊢
    dsimp only
    omega
  have linked' : Linked mem' space.entries (p ++ ⟨c.start, c.size + e.size⟩ :: t) := by
    rw [← memory]
    exact setLength_spec placed kept.linked _
  have rest' : Linked mem' c.start t := (linked_append.mp linked').2.2.2.2
  obtain ⟨same, count, hinted⟩ := hintAppend_spec (e := ⟨c.start, c.size + e.size⟩)
    measured.graded kept.hinted (fun r before => placed'.before before) rfl
    (fun r after => placed.after after)
    (linked'.length (mem_append_cons_self)) rest'
    (fun r after => (kept.entry r (mem_append_right _ (mem_cons_of_mem _ after))).fits)
    (kept.entry c member).fits joined.fits hints
  refine ⟨⟨?_, ?_, forall_insert (forall_remove kept.entry) joined, hinted, ?_⟩, same, ?_,
    cover_widen pieces, ?_⟩
  · rw [same.entries]
    exact linked'
  · rw [same.entries]
    exact placed'
  · rw [count, kept.count, length_append, length_append]
    rfl
  · intro r before
    have order := placed.stop_le before
    unfold Range.stop at touch
    omega
  · intro x off out
    rw [← memory]
    rw [cover_append] at out
    exact setLength_frame member placed x off (Nat.eq_zero_of_add_eq_zero_right out)

omit kept element

/-- The element fills the gap between two entries. -/
theorem collect_fill (kept : Kept mem space grain limit (p ++ c :: b :: t))
    (element : Element space.entries (p ++ c :: b :: t) grain limit e) (touch : c.stop = e.start)
    (fills : e.stop = b.start) {mem₁ mem₂ : Memory} {space₁ : FreeSpace}
    (memory₁ : mem.setLength c.start (c.size + e.size) = mem₁)
    (drop : hintDrop turns space mem₁ b.start b.size b.start = some space₁)
    (memory₂ : mem₁.setLength c.start (c.size + e.size + b.size) = mem₂)
    (memory : mem₂.unlink c.start (firstOf t) = mem')
    (hints : hintAppend turns { space₁ with numEntries := space₁.numEntries - 1 } mem' c.start
      c.size = some space') :
    Collected mem mem' space space' grain limit (p ++ c :: b :: t) e p
      (⟨c.start, c.size + e.size + b.size⟩ :: t) := by
  have placed := kept.placed
  have member : c ∈ p ++ c :: b :: t := mem_append_cons_self
  have member_next : b ∈ p ++ c :: b :: t :=
    mem_append_right _ (mem_cons_of_mem _ mem_cons_self)
  have behind : ∀ r ∈ t, r ∈ p ++ c :: b :: t := fun r after =>
    mem_append_right _ (mem_cons_of_mem _ (mem_cons_of_mem _ after))
  have half : Entry grain limit ⟨c.start, c.size + e.size⟩ :=
    (kept.entry c member).joined element.entry touch wide
  have half_touch : Range.stop ⟨c.start, c.size + e.size⟩ = b.start := by
    unfold Range.stop at touch fills ⊢
    dsimp only
    omega
  have whole : Entry grain limit ⟨c.start, c.size + e.size + b.size⟩ :=
    half.joined (kept.entry b member_next) half_touch wide
  have half_pieces : ∀ x, cover [⟨c.start, c.size + e.size⟩] x = cover [c] x + cover [e] x :=
    cover_touch touch
  have pieces : ∀ x, cover [⟨c.start, c.size + e.size + b.size⟩] x =
      cover [⟨c.start, c.size + e.size⟩] x + cover [b] x :=
    cover_touch half_touch
  have order : ∀ r ∈ t, b.stop ≤ r.start := by
    have shape : p ++ c :: b :: t = (p ++ [c]) ++ b :: t := by
      rw [append_assoc, singleton_append]
    exact fun r after => (shape ▸ placed).le_start after
  -- First the entry grows to the next one, then over it.
  have placed₁ : Placed space.entries (p ++ ⟨c.start, c.size + e.size⟩ :: b :: t) := by
    apply placed.widen element.outside half_pieces (half.fits.big measured.header)
      (placed.positive c member) (fun r before => placed.stop_le before)
    intro r after
    rcases mem_cons.mp after with rfl | after
    · exact Nat.le_of_eq half_touch
    have later := order r after
    unfold Range.stop at later half_touch ⊢
    omega
  have linked₁ : Linked mem₁ space.entries (p ++ ⟨c.start, c.size + e.size⟩ :: b :: t) := by
    rw [← memory₁]
    exact setLength_spec placed kept.linked _
  have linked₂ : Linked mem₂ space.entries
      ((p ++ [⟨c.start, c.size + e.size + b.size⟩]) ++ b :: t) := by
    rw [← memory₂, append_assoc, singleton_append]
    exact setLength_spec placed₁ linked₁ _
  have placed' : Placed space.entries (p ++ ⟨c.start, c.size + e.size + b.size⟩ :: t) := by
    have without : Placed space.entries (p ++ ⟨c.start, c.size + e.size⟩ :: t) :=
      placed₁.sublist (((sublist_cons_self b t).cons_cons _).append_left p)
    apply without.widen (placed.outside b member_next) pieces (whole.fits.big measured.header)
      (placed.positive c member) (fun r before => placed.stop_le before)
    intro r after
    have later := order r after
    unfold Range.stop at later half_touch ⊢
    dsimp only at half_touch ⊢
    omega
  have shape : p ++ ⟨c.start, c.size + e.size + b.size⟩ :: t =
      (p ++ [⟨c.start, c.size + e.size + b.size⟩]) ++ t := by
    rw [append_assoc, singleton_append]
  have last : slotAfter space.entries (p ++ [⟨c.start, c.size + e.size + b.size⟩]) = c.start := by
    rw [slotAfter_append]
    rfl
  obtain ⟨front₂, -, -, -, rest₂⟩ := linked_append.mp linked₂
  have linked' : Linked mem' space.entries (p ++ ⟨c.start, c.size + e.size + b.size⟩ :: t) := by
    have unlinked := unlink_spec (shape ▸ placed') front₂ rest₂.ends
    rw [last, memory] at unlinked
    rw [shape]
    exact unlinked
  have hinted : Hinted space ((p ++ [c]) ++ b :: t) := by
    rw [append_assoc]
    exact kept.hinted
  have rest₁ : Linked mem₁ b.start t := (linked_append.mp linked₁).2.2.2.2.2.2.2
  have in_front : ∀ r ∈ p ++ [c], r.start ≠ b.start := by
    have placed : Placed space.entries ((p ++ [c]) ++ b :: t) := by
      rw [append_assoc]
      exact placed
    exact fun r before => Nat.ne_of_lt (placed.before before).2
  obtain ⟨same₁, count₁, hinted₁⟩ := hintDrop_spec measured.graded hinted in_front rest₁
    (fun r after => placed.positive r (behind r after))
    (fun r after => (kept.entry r (behind r after)).fits) (kept.entry b member_next).fits drop
  rw [append_assoc, singleton_append] at hinted₁
  have table : SameTable space { space₁ with numEntries := space₁.numEntries - 1 } :=
    same₁.trans ⟨rfl, rfl, rfl, rfl, rfl⟩
  have rest' : Linked mem' c.start t := (linked_append.mp linked').2.2.2.2
  have after_c : ∀ r ∈ t, c.start < r.start := fun r after =>
    placed.after (mem_cons_of_mem _ after)
  obtain ⟨same, count, hinted'⟩ := hintAppend_spec (e := ⟨c.start, c.size + e.size + b.size⟩)
    (table.graded measured.graded) (hinted₁.withNum _) (fun r before => placed'.before before) rfl
    after_c (linked'.length (mem_append_cons_self)) rest'
    (fun r after => (kept.entry r (behind r after)).fits) (kept.entry c member).fits whole.fits
    hints
  refine ⟨⟨?_, ?_, forall_insert (forall_remove (forall_remove kept.entry)) whole, hinted', ?_⟩,
    table.trans same, ?_, ?_, ?_⟩
  · rw [same.entries, table.entries]
    exact linked'
  · rw [same.entries, table.entries]
    exact placed'
  · have count_old := kept.count
    rw [length_append, length_cons, length_cons] at count_old
    rw [count, length_append, length_cons]
    dsimp only
    omega
  · intro r before
    have order := placed.stop_le before
    unfold Range.stop at touch
    omega
  · intro x
    have pieces := pieces x
    have half_pieces := half_pieces x
    rw [cover_append, cover_append, cover_cons _ t, cover_cons c, cover_cons b t]
    omega
  · intro x off out
    have split := half_pieces x
    have whole_split := pieces x
    rw [cover_append, cover_append, cover_cons c, cover_cons b t] at out
    have first : mem₁ x = mem x := by
      rw [← memory₁]
      apply setLength_frame member placed x off
      rw [cover_append, cover_cons c, cover_cons b t]
      omega
    have second : mem₂ x = mem₁ x := by
      rw [← memory₂]
      apply setLength_frame (c := ⟨c.start, c.size + e.size⟩) (mem_append_cons_self) placed₁ x off
      rw [cover_append, cover_cons _ (b :: t), cover_cons b t]
      omega
    have third : mem' x = mem₂ x := by
      rw [← memory, ← last]
      apply unlink_frame (shape ▸ placed') x off
      rw [cover_append, cover_append]
      omega
    rw [third, second, first]

/-- A turn of the loop of `zone_collect`. -/
theorem collect_spec (kept : Kept mem space grain limit (l₁ ++ l₂))
    (element : Element space.entries (l₁ ++ l₂) grain limit ⟨elem, elemSize⟩)
    (passed : ∀ r ∈ l₁, r.stop ≤ elem)
    (collected : collectElement turns space mem (slotAfter space.entries l₁) elem elemSize =
      some (last', mem', space')) :
    ∃ k₁ k₂, last' = slotAfter space.entries k₁ ∧
      Collected mem mem' space space' grain limit (l₁ ++ l₂) ⟨elem, elemSize⟩ k₁ k₂ := by
  have positive : ∀ r ∈ l₂, 0 < r.start := fun r inside =>
    kept.placed.positive r (mem_append_right _ inside)
  have lengths : ∀ r ∈ l₁ ++ l₂, lengthOf mem r.start = r.size := fun r inside =>
    kept.linked.length inside
  have behind := (linked_append.mp kept.linked).2
  rw [collectElement] at collected
  split at collected
  · cases collected
  rename_i last searched
  obtain ⟨m₁, t, rfl, rfl, pointer, skipped, stopped⟩ := walk_spec behind positive searched
  -- All entries up to the place that was found are below the element.
  have passed : ∀ r ∈ l₁ ++ m₁, r.stop ≤ elem := by
    intro r inside
    rcases mem_append.mp inside with before | between
    · exact passed r before
    · have lower := of_decide_eq_true (skipped r between)
      rw [lengths r (mem_append_right _ (mem_append_left _ between))] at lower
      exact Nat.le_of_lt lower
  rw [← append_assoc] at kept element lengths ⊢
  rw [← slotAfter_append] at collected pointer
  have placed := kept.placed
  cases t with
  | nil =>
    have null : mem (slotAfter space.entries (l₁ ++ m₁)) = 0 := pointer
    rw [null] at collected
    rw [if_pos (.inl rfl)] at collected
    obtain ⟨rfl, pair⟩ := Prod.mk.inj (some.inj collected)
    obtain ⟨memory, table⟩ := Prod.mk.inj pair
    rw [memory] at table
    exact ⟨_, _, rfl, collect_insert measured kept element passed (forall_mem_nil _) memory table⟩
  | cons c t =>
    have member : c ∈ l₁ ++ m₁ ++ c :: t := mem_append_cons_self
    have some_start := placed.positive c member
    have length := lengths c member
    have high : ¬ c.start + c.size < elem := by
      have stays := of_decide_eq_false (stopped c t rfl)
      rwa [length] at stays
    have apart := element.apart c member
    have rest : Linked mem c.start t := (linked_append.mp kept.linked).2.2.2.2
    have current : mem (slotAfter space.entries (l₁ ++ m₁)) = c.start := pointer
    unfold Range.stop at apart
    dsimp only at apart
    rw [current] at collected
    dsimp only at collected
    rw [length, rest.first] at collected
    split at collected
    case isTrue lower =>
      have lower : elem + elemSize < c.start := by omega
      obtain ⟨rfl, pair⟩ := Prod.mk.inj (some.inj collected)
      obtain ⟨memory, table⟩ := Prod.mk.inj pair
      rw [memory] at table
      refine ⟨_, _, rfl, collect_insert measured kept element passed ?_ memory table⟩
      intro r inside
      rcases mem_cons.mp inside with rfl | after
      · exact Nat.le_of_lt lower
      · exact Nat.le_of_lt (Nat.lt_trans lower (placed.after after))
    case isFalse not_lower =>
      split at collected
      case isTrue touch =>
        split at collected
        · cases collected
        rename_i moved hints
        cases collected
        exact ⟨_, _, rfl, collect_prepend measured wide kept element passed touch rfl hints⟩
      case isFalse no_touch =>
        -- The element does not overlap the entry, so that it starts where the entry ends.
        have meets : c.start + c.size = elem := by omega
        rw [if_pos meets] at collected
        have next_eq : (mem.setLength c.start (c.size + elemSize)) c.start = firstOf t := by
          rw [← rest.first]
          exact Memory.set_other (by omega)
        have length₁ : lengthOf (mem.setLength c.start (c.size + elemSize)) c.start =
            c.size + elemSize := Memory.set_self ..
        rw [next_eq, length₁] at collected
        split at collected
        case isTrue fills =>
          cases t with
          | nil =>
            have null : firstOf [] = 0 := rfl
            omega
          | cons b t =>
            have first : firstOf (b :: t) = b.start := rfl
            rw [first] at fills collected
            have linked₁ := setLength_spec placed kept.linked (c.size + elemSize)
            have member_next : b ∈ l₁ ++ m₁ ++ ⟨c.start, c.size + elemSize⟩ :: b :: t :=
              mem_append_right _ (mem_cons_of_mem _ mem_cons_self)
            have length_next := linked₁.length member_next
            rw [hintDelete, length_next] at collected
            split at collected
            · cases collected
            rename_i dropped drop
            split at collected
            · cases collected
            rename_i moved hints
            have rest₁ : Linked (mem.setLength c.start (c.size + elemSize)) b.start t :=
              (linked_append.mp linked₁).2.2.2.2.2.2.2
            have next_next : ((mem.setLength c.start (c.size + elemSize)).setLength c.start
                (c.size + elemSize + b.size)) b.start = firstOf t := by
              rw [← rest₁.first]
              have order := placed.after (r := b) mem_cons_self
              have apart := placed.le_start (r := b) mem_cons_self
              have big := placed.big c member
              exact Memory.set_other (by omega)
            rw [next_next] at hints collected
            cases collected
            have fills : elem + elemSize = b.start := by omega
            exact ⟨_, _, rfl, collect_fill measured wide kept element meets fills rfl drop rfl rfl
              hints⟩
        case isFalse gap =>
          split at collected
          · cases collected
          rename_i moved hints
          cases collected
          refine ⟨_, _, rfl, collect_append measured wide kept element meets ?_ rfl hints⟩
          intro r after
          have apart := element.apart r (mem_append_right _ (mem_cons_of_mem _ after))
          have order := placed.le_start after
          have big := placed.big r (mem_append_right _ (mem_cons_of_mem _ after))
          unfold Range.stop at apart order ⊢
          dsimp only at apart ⊢
          omega

end Collect

end Darwin.Kern.Zalloc
