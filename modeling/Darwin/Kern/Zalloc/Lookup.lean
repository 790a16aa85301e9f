import Darwin.Kern.Zalloc.Hints

/-!
# Looking up an entry

`zone_free_space_lookup` finds an entry exactly if one is large enough, and takes it off the hints.

## Main results

* `lookup_spec`: what a lookup finds, and the hints that it leaves.
* `lookup_returns`: a lookup comes to an end.
-/

namespace Darwin.Kern.Zalloc

open List Darwin.Lib Option

section Lookup

variable {space space' : FreeSpace} {Fit : ℕ → Prop} {mem : Memory} {slot turns entry size : ℕ}
  {hash : ℤ} {e : Range} {l l₁ l₂ : List Range}

theorem Placed.before (placed : Placed slot (l₁ ++ e :: l₂)) {r : Range} (inside : r ∈ l₁) :
    0 < r.start ∧ r.start < e.start := by
  have order := placed.sorted
  rw [pairwise_append] at order
  have apart := order.2.2 r inside e mem_cons_self
  have big := placed.big r (mem_append_left _ inside)
  have positive := placed.positive r (mem_append_left _ inside)
  unfold Range.stop at apart
  omega

theorem Placed.after (placed : Placed slot (l₁ ++ e :: l₂)) {r : Range} (inside : r ∈ l₂) :
    e.start < r.start := by
  have order := placed.sorted
  rw [pairwise_append, pairwise_cons] at order
  have apart := order.2.1.1 r inside
  have big := placed.big e (mem_append_cons_self)
  unfold Range.stop at apart
  omega

/-- What a lookup has found: nothing, as no entry is large enough, or an entry that is, and which
the hints do not know of any more. -/
def Found (space space' : FreeSpace) (l : List Range) (size entry : ℕ) : Prop :=
  (entry = 0 ∧ space' = space ∧ ∀ r ∈ l, r.size < size) ∨
    ∃ l₁ e l₂, l = l₁ ++ e :: l₂ ∧ entry = e.start ∧ size ≤ e.size ∧ SameTable space space' ∧
      space'.numEntries = space.numEntries ∧ Hinted space' (l₁ ++ l₂)

/-- An entry that the hints give up is found. -/
theorem found_of_drop (graded : Graded space Fit) (hinted : Hinted space (l₁ ++ e :: l₂))
    (placed : Placed slot (l₁ ++ e :: l₂)) (linked : Linked mem slot (l₁ ++ e :: l₂))
    (fits : ∀ r ∈ l₁ ++ e :: l₂, Fit r.size) (large : size ≤ e.size)
    (drop : hintDrop turns space mem e.start e.size e.start = some space') :
    Found space space' (l₁ ++ e :: l₂) size e.start := by
  have rest : Linked mem e.start l₂ := (linked_append.mp linked).2.2.2.2
  have behind : ∀ r ∈ l₂, r ∈ l₁ ++ e :: l₂ := fun r inside =>
    mem_append_right _ (mem_cons_of_mem _ inside)
  obtain ⟨same, count, kept⟩ := hintDrop_spec graded hinted
    (fun r inside => Nat.ne_of_lt (placed.before inside).2) rest
    (fun r inside => placed.positive r (behind r inside)) (fun r inside => fits r (behind r inside))
    (fits e (mem_append_cons_self)) drop
  exact .inr ⟨l₁, e, l₂, rfl, rfl, large, same, count, kept⟩

/-- The first entry with an index. -/
theorem exists_first (some_left : bucket space hash l ≠ []) :
    ∃ l₁ e l₂, l = l₁ ++ e :: l₂ ∧ (∀ r ∈ l₁, zoneFreeSpaceHash space r.size ≠ hash) ∧
      zoneFreeSpaceHash space e.size = hash ∧ firstOf (bucket space hash l) = e.start := by
  obtain ⟨e, t, shape⟩ := exists_cons_of_ne_nil some_left
  obtain ⟨l₁, l₂, split, before, own, -⟩ := filter_eq_cons_iff.mp shape
  refine ⟨l₁, e, l₂, split, ?_, of_decide_eq_true own, ?_⟩
  · intro r inside same
    exact before r inside (decide_eq_true same)
  · rw [shape]
    rfl

/-- The hint that a lookup takes gives the entry up. -/
theorem drop_of_take (length : lengthOf mem e.start = e.size)
    (own : zoneFreeSpaceHash space e.size = hash) (hint : space.hints hash = e.start)
    (taken : (match nextHint turns space mem hash e.start (lengthOf mem e.start) with
      | none => none
      | some cur => some (e.start, space.setHint hash cur)) = some (entry, space')) :
    entry = e.start ∧ hintDrop turns space mem e.start e.size e.start = some space' := by
  rw [length] at taken
  split at taken
  · cases taken
  rename_i cur searched
  obtain ⟨same, table⟩ := Prod.mk.inj (some.inj taken)
  refine ⟨same.symm, ?_⟩
  rw [hintDrop, own]
  rw [if_pos hint.symm, searched]
  dsimp only
  rw [table]

/-- The lookup from a hint on, where all entries that are large enough have that index or a higher
one. -/
theorem lookupHints_spec (graded : Graded space Fit) (hinted : Hinted space l)
    (placed : Placed slot l) (linked : Linked mem slot l) (fits : ∀ r ∈ l, Fit r.size)
    (fit : Fit size) (from_here : zoneFreeSpaceHash space size ≤ hash ∧ hash ≤ space.numHints)
    (left : ∀ r ∈ l, size ≤ r.size → hash ≤ zoneFreeSpaceHash space r.size)
    (found : lookupHints space mem size turns hash = some (entry, space')) :
    Found space space' l size entry := by
  induction turns generalizing hash with
  | zero => cases found
  | succ turns ih =>
    have first := (graded.range fit).1
    have hint : space.hints hash = firstOf (bucket space hash l) := by
      rcases hinted hash with hint | outside
      · exact hint
      · omega
    have null : space.hints hash = 0 ↔ bucket space hash l = [] := by
      rw [hint]
      exact firstOf_eq_zero (placed.sublist filter_sublist)
    rw [lookupHints] at found
    split at found
    case isTrue below =>
      split at found
      case isTrue some_hint =>
        obtain ⟨l₁, e, l₂, rfl, before, own, start⟩ := exists_first (fun empty => some_hint
          (null.mpr empty))
        have member : e ∈ l₁ ++ e :: l₂ := mem_append_cons_self
        have hint_start := hint.trans start
        rw [hint_start] at found
        obtain ⟨rfl, drop⟩ := drop_of_take (linked.length member) own hint_start found
        refine found_of_drop graded hinted placed linked fits ?_ drop
        -- Below the last index a size has an index of its own.
        by_contra small
        have lower := graded.mono (fits e member) fit (by omega)
        have equal : zoneFreeSpaceHash space size = zoneFreeSpaceHash space e.size := by omega
        have sizes := (graded.exact (fits e member) fit (by omega)).mp equal
        omega
      case isFalse no_hint =>
        apply ih (by omega) _ found
        intro r inside large
        have here := left r inside large
        have empty : bucket space hash l = [] := by
          rw [← null]
          by_contra some_hint
          exact no_hint some_hint
        have other : zoneFreeSpaceHash space r.size ≠ hash := by
          intro same
          have member : r ∈ bucket space hash l := mem_bucket.mpr ⟨inside, same⟩
          rw [empty] at member
          cases member
        omega
    case isFalse not_below =>
      obtain rfl : hash = space.numHints := by omega
      -- All entries that are large enough have the last index.
      have last : ∀ r ∈ l, size ≤ r.size → zoneFreeSpaceHash space r.size = space.numHints := by
        intro r inside large
        have lower := left r inside large
        have upper := (graded.range (fits r inside)).2
        omega
      split at found
      case isTrue some_hint =>
        obtain ⟨l₁, e, l₂, rfl, before, own, start⟩ := exists_first (fun empty => some_hint
          (null.mpr empty))
        have member : e ∈ l₁ ++ e :: l₂ := mem_append_cons_self
        have hint_start := hint.trans start
        have in_front : ∀ r ∈ l₁, r.size < size := by
          intro r inside
          by_contra large
          exact before r inside (last r (mem_append_left _ inside) (by omega))
        rw [hint_start] at found
        split at found
        case isTrue small =>
          rw [linked.length member] at small
          split at found
          · cases found
          rename_i place searched
          cases found
          have rest : Linked mem e.start l₂ := (linked_append.mp linked).2.2.2.2
          have behind : ∀ r ∈ l₂, r ∈ l₁ ++ e :: l₂ := fun r inside =>
            mem_append_right _ (mem_cons_of_mem _ inside)
          obtain ⟨k₁, k₂, rfl, rfl, pointer, passed, stopped⟩ := walk_spec rest
            (fun r inside => placed.positive r (behind r inside)) searched
          have passed : ∀ r ∈ k₁, r.size < size := by
            intro r inside
            have test := of_decide_eq_true (passed r inside)
            rwa [linked.length (behind r (mem_append_left _ inside))] at test
          rw [pointer]
          cases k₂ with
          | nil =>
            refine .inl ⟨rfl, rfl, ?_⟩
            intro r inside
            rcases mem_append.mp inside with front | back
            · exact in_front r front
            rw [append_nil] at back
            rcases mem_cons.mp back with rfl | back
            · exact small
            · exact passed r back
          | cons r t =>
            have member_r : r ∈ l₁ ++ e :: (k₁ ++ r :: t) :=
              behind r (mem_append_cons_self)
            have large : size ≤ r.size := by
              have test := of_decide_eq_false (stopped r t rfl)
              rw [linked.length member_r] at test
              omega
            have shape : l₁ ++ e :: (k₁ ++ r :: t) = (l₁ ++ e :: k₁) ++ r :: t := by
              rw [append_assoc, cons_append]
            have ahead : e.start < r.start :=
              placed.after (mem_append_cons_self)
            rw [shape] at hinted placed linked fits ⊢
            have kept : hintDrop turns space mem r.start r.size r.start = some space := by
              apply hintDrop_of_ne
              rw [last r member_r large, hint_start]
              exact Ne.symm (Nat.ne_of_lt ahead)
            exact found_of_drop graded hinted placed linked fits large kept
        case isFalse large =>
          obtain ⟨rfl, drop⟩ := drop_of_take (linked.length member) own hint_start found
          rw [linked.length member] at large
          exact found_of_drop graded hinted placed linked fits (by omega) drop
      case isFalse no_hint =>
        cases found
        refine .inl ⟨rfl, rfl, ?_⟩
        intro r inside
        by_contra large
        have member : r ∈ bucket space space.numHints l :=
          mem_bucket.mpr ⟨inside, last r inside (by omega)⟩
        apply no_hint
        rw [ne_eq, null]
        exact ne_nil_of_mem member

/-- `zone_free_space_lookup` finds an entry exactly if one is large enough. -/
theorem lookup_spec (graded : Graded space Fit) (hinted : Hinted space l)
    (placed : Placed space.entries l) (linked : Linked mem space.entries l)
    (fits : ∀ r ∈ l, Fit r.size) (fit : Fit size)
    (found : zoneFreeSpaceLookup turns space mem size = some (entry, space')) :
    Found space space' l size entry := by
  rw [zoneFreeSpaceLookup, linked.first] at found
  split at found
  case isTrue empty =>
    cases found
    rw [firstOf_eq_zero placed] at empty
    subst empty
    exact .inl ⟨rfl, rfl, fun r inside => absurd inside not_mem_nil⟩
  case isFalse some_left =>
    rw [firstOf_eq_zero placed] at some_left
    obtain ⟨e, t, rfl⟩ := exists_cons_of_ne_nil some_left
    have length : lengthOf mem e.start = e.size := linked.2.2.1
    split at found
    case isTrue large =>
      split at found
      · cases found
      rename_i dropped drop
      obtain ⟨rfl, rfl⟩ := Prod.mk.inj (some.inj found)
      rw [hintDelete] at drop
      have large : size ≤ e.size := length ▸ large
      have drop : hintDrop turns space mem e.start e.size e.start = some dropped := length ▸ drop
      exact @found_of_drop _ _ _ _ _ _ _ _ [] _ graded hinted placed linked fits large drop
    case isFalse small =>
      have range := graded.range fit
      apply lookupHints_spec graded hinted placed linked fits fit ⟨Int.le_refl _, range.2⟩ _ found
      intro r inside large
      exact graded.mono fit (fits r inside) large

/-- A search of a list comes to its end. -/
theorem walk_returns (goesOn : ℕ → Bool) (linked : Linked mem slot l) (room : l.length < turns) :
    ∃ last, walk mem goesOn turns slot = some last := by
  induction turns generalizing slot l with
  | zero => exact absurd room (Nat.not_lt_zero _)
  | succ turns ih =>
    rw [walk]
    split
    case isFalse => exact ⟨slot, rfl⟩
    case isTrue goes =>
      cases l with
      | nil => exact absurd linked goes.1
      | cons r l =>
        rw [linked.1]
        exact ih linked.2.2.2 (Nat.lt_of_succ_lt_succ room)

theorem nextHint_returns (space : FreeSpace) (hash : ℤ) (linked : Linked mem slot l)
    (room : l.length < turns) (length : ℕ) :
    ∃ cur, nextHint turns space mem hash slot length = some cur := by
  obtain ⟨last, searched⟩ := walk_returns (fun cur => if hash < space.numHints then
    lengthOf mem cur ≠ length else lengthOf mem cur < space.allocMax) linked room
  refine ⟨mem last, ?_⟩
  rw [nextHint]
  rw [searched]

theorem hintDrop_returns (space : FreeSpace) (linked : Linked mem slot l) (room : l.length < turns)
    (oldLength oldEntry : ℕ) :
    ∃ dropped, hintDrop turns space mem slot oldLength oldEntry = some dropped := by
  rw [hintDrop]
  split
  case isTrue =>
    obtain ⟨cur, searched⟩ := nextHint_returns space _ linked room oldLength
    rw [searched]
    exact ⟨_, rfl⟩
  case isFalse => exact ⟨_, rfl⟩

theorem lookupHints_returns (hinted : Hinted space l) (linked : Linked mem slot l)
    (in_table : 1 ≤ hash ∧ hash ≤ space.numHints)
    (room : l.length + (space.numHints - hash).toNat + 1 < turns) :
    ∃ found, lookupHints space mem size turns hash = some found := by
  induction turns generalizing hash with
  | zero => exact absurd room (Nat.not_lt_zero _)
  | succ turns ih =>
    have hint : space.hints hash = firstOf (bucket space hash l) := by
      rcases hinted hash with hint | outside
      · exact hint
      · omega
    -- Behind an entry that a hint names there is the rest of the list.
    have behind : space.hints hash ≠ 0 → ∃ t, Linked mem (space.hints hash) t ∧
        t.length < turns := by
      intro some_hint
      have some_left : bucket space hash l ≠ [] := by
        intro empty
        rw [hint, empty] at some_hint
        exact some_hint rfl
      obtain ⟨l₁, e, l₂, rfl, -, -, start⟩ := exists_first some_left
      refine ⟨l₂, ?_, ?_⟩
      · rw [hint, start]
        exact (linked_append.mp linked).2.2.2.2
      · rw [length_append, length_cons] at room
        omega
    rw [lookupHints]
    split
    case isTrue below =>
      split
      case isTrue some_hint =>
        obtain ⟨t, rest, fuel⟩ := behind some_hint
        obtain ⟨cur, searched⟩ := nextHint_returns space hash rest fuel
          (lengthOf mem (space.hints hash))
        rw [searched]
        exact ⟨_, rfl⟩
      case isFalse =>
        have later : l.length + (space.numHints - (hash + 1)).toNat + 1 < turns := by
          clear behind
          omega
        exact ih (by omega) later
    case isFalse =>
      split
      case isTrue some_hint =>
        obtain ⟨t, rest, fuel⟩ := behind some_hint
        split
        case isTrue =>
          obtain ⟨last, searched⟩ := walk_returns (fun cur => lengthOf mem cur < size) rest fuel
          rw [searched]
          exact ⟨_, rfl⟩
        case isFalse =>
          obtain ⟨cur, searched⟩ := nextHint_returns space hash rest fuel
            (lengthOf mem (space.hints hash))
          rw [searched]
          exact ⟨_, rfl⟩
      case isFalse => exact ⟨_, rfl⟩

/-- A lookup comes to an end, given turns for the whole list and all hints. -/
theorem lookup_returns (graded : Graded space Fit) (hinted : Hinted space l)
    (placed : Placed space.entries l) (linked : Linked mem space.entries l) (fit : Fit size)
    (room : l.length + space.numHints.toNat + 1 < turns) :
    ∃ found, zoneFreeSpaceLookup turns space mem size = some found := by
  rw [zoneFreeSpaceLookup, linked.first]
  split
  case isTrue => exact ⟨_, rfl⟩
  case isFalse some_left =>
    rw [firstOf_eq_zero placed] at some_left
    obtain ⟨e, t, rfl⟩ := exists_cons_of_ne_nil some_left
    split
    case isTrue =>
      rw [length_cons] at room
      obtain ⟨dropped, drop⟩ := hintDrop_returns space linked.2.2.2
        (show t.length < turns by omega) (lengthOf mem e.start) e.start
      have delete : hintDelete turns space mem e.start = some dropped := drop
      have delete : hintDelete turns space mem (firstOf (e :: t)) = some dropped := delete
      rw [delete]
      exact ⟨_, rfl⟩
    case isFalse =>
      have range := graded.range fit
      exact lookupHints_returns hinted linked range (by omega)

end Lookup

end Darwin.Kern.Zalloc
