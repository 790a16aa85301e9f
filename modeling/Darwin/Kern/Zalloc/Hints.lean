import Darwin.Kern.Zalloc.Entries

/-!
# The hint table of a free list

The hint of each index is the lowest entry with that index.  Every routine that changes an entry
keeps it so, and a lookup finds an entry exactly if one is large enough.

## Main results

* `hintDrop_spec`, `hintPut_spec`, `hintPrepend_spec`, `hintAppend_spec`: the updates.
* `lookup_spec`: `zone_free_space_lookup`.
-/

namespace Darwin.Kern.Zalloc

open List Darwin.Lib Option

/-- The entries with this index. -/
def bucket (space : FreeSpace) (hash : ℤ) (l : List Range) : List Range :=
  l.filter fun r => zoneFreeSpaceHash space r.size = hash

/-- Each hint is the lowest entry with its index, or null. -/
def Hinted (space : FreeSpace) (l : List Range) : Prop :=
  ∀ hash, space.hints hash = firstOf (bucket space hash l) ∨ hash < 1 ∨ space.numHints < hash

/-- The sizes that occur in a free space, and what their indices tell about them: below the last
index a size has an index of its own, and the last one is that of all sizes from `alloc_max` on. -/
structure Graded (space : FreeSpace) (Fit : ℕ → Prop) : Prop where
  range : ∀ {n}, Fit n → 1 ≤ zoneFreeSpaceHash space n ∧ zoneFreeSpaceHash space n ≤ space.numHints
  exact : ∀ {m n}, Fit m → Fit n → zoneFreeSpaceHash space m < space.numHints →
    (zoneFreeSpaceHash space n = zoneFreeSpaceHash space m ↔ n = m)
  last : ∀ {n}, Fit n → (zoneFreeSpaceHash space n = space.numHints ↔ space.allocMax ≤ n)
  mono : ∀ {m n}, Fit m → Fit n → m ≤ n → zoneFreeSpaceHash space m ≤ zoneFreeSpaceHash space n

/-- The two free spaces differ in their hints and their number of entries only. -/
structure SameTable (space space' : FreeSpace) : Prop where
  allocUnit : space'.allocUnit = space.allocUnit
  allocMax : space'.allocMax = space.allocMax
  entries : space'.entries = space.entries
  hashShift : space'.hashShift = space.hashShift
  numHints : space'.numHints = space.numHints

section Table

variable {space space' space'' : FreeSpace} {Fit : ℕ → Prop} {n : ℕ} {hash : ℤ} {l : List Range}

theorem SameTable.refl : SameTable space space := ⟨rfl, rfl, rfl, rfl, rfl⟩

theorem SameTable.trans (first : SameTable space space') (second : SameTable space' space'') :
    SameTable space space'' where
  allocUnit := second.allocUnit.trans first.allocUnit
  allocMax := second.allocMax.trans first.allocMax
  entries := second.entries.trans first.entries
  hashShift := second.hashShift.trans first.hashShift
  numHints := second.numHints.trans first.numHints

variable (same : SameTable space space')

include same

theorem SameTable.hash_eq (n : ℕ) : zoneFreeSpaceHash space' n = zoneFreeSpaceHash space n := by
  unfold zoneFreeSpaceHash
  rw [same.hashShift, same.numHints]

theorem SameTable.bucket_eq : bucket space' hash l = bucket space hash l := by
  unfold Zalloc.bucket
  simp only [same.hash_eq]

theorem SameTable.graded (graded : Graded space Fit) :
    Graded space' Fit where
  range fit := by
    rw [same.hash_eq, same.numHints]
    exact graded.range fit
  exact fit_m fit_n := by
    rw [same.hash_eq, same.hash_eq, same.numHints]
    exact graded.exact fit_m fit_n
  last fit := by
    rw [same.hash_eq, same.numHints, same.allocMax]
    exact graded.last fit
  mono fit_m fit_n le := by
    rw [same.hash_eq, same.hash_eq]
    exact graded.mono fit_m fit_n le

omit same

/-- The hints do not depend on the number of the entries. -/
theorem Hinted.withNum (hinted : Hinted space l) (num : ℤ) :
    Hinted { space with numEntries := num } l := hinted

end Table

section Buckets

variable {space : FreeSpace} {hash : ℤ} {e : Range} {l l₁ l₂ : List Range}

theorem bucket_append :
    bucket space hash (l₁ ++ l₂) = bucket space hash l₁ ++ bucket space hash l₂ :=
  filter_append ..

theorem bucket_cons_same (same : zoneFreeSpaceHash space e.size = hash) :
    bucket space hash (e :: l) = e :: bucket space hash l :=
  filter_cons_of_pos (decide_eq_true same)

theorem bucket_cons_other (other : zoneFreeSpaceHash space e.size ≠ hash) :
    bucket space hash (e :: l) = bucket space hash l :=
  filter_cons_of_neg fun same => other (of_decide_eq_true same)

theorem bucket_subset : bucket space hash l ⊆ l := filter_subset_self l

theorem mem_bucket {r : Range} :
    r ∈ bucket space hash l ↔ r ∈ l ∧ zoneFreeSpaceHash space r.size = hash := by
  simp [bucket]

theorem firstOf_append_of_ne_nil (some_left : l₁ ≠ []) : firstOf (l₁ ++ l₂) = firstOf l₁ := by
  cases l₁ with
  | nil => exact absurd rfl some_left
  | cons r l => rfl

theorem firstOf_mem (some_left : l ≠ []) : ∃ r ∈ l, firstOf l = r.start := by
  cases l with
  | nil => exact absurd rfl some_left
  | cons r l => exact ⟨r, mem_cons_self, rfl⟩

end Buckets

section Updates

variable {space space' : FreeSpace} {Fit : ℕ → Prop} {mem : Memory} {slot turns cur : ℕ}
  {e old : Range} {l₁ l₂ : List Range}

theorem Linked.length (linked : Linked mem slot l₁) {r : Range} (inside : r ∈ l₁) :
    lengthOf mem r.start = r.size := by
  induction l₁ generalizing slot with
  | nil => cases inside
  | cons r' l ih =>
    rcases mem_cons.mp inside with rfl | inside
    · exact linked.2.2.1
    · exact ih linked.2.2.2 inside

/-- The search for the next entry with the same index. -/
theorem nextHint_spec (graded : Graded space Fit) (linked : Linked mem slot l₂)
    (positive : ∀ r ∈ l₂, 0 < r.start) (fits : ∀ r ∈ l₂, Fit r.size) {n : ℕ} (fit : Fit n)
    (found : nextHint turns space mem (zoneFreeSpaceHash space n) slot n = some cur) :
    cur = firstOf (bucket space (zoneFreeSpaceHash space n) l₂) := by
  rw [nextHint] at found
  split at found
  · cases found
  rename_i last place
  obtain ⟨k₁, k₂, rfl, rfl, pointer, passed, stopped⟩ := walk_spec linked positive place
  -- The search goes on exactly at the entries with another index.
  have test : ∀ r ∈ k₁ ++ k₂, ((if zoneFreeSpaceHash space n < space.numHints then
      decide (lengthOf mem r.start ≠ n) else decide (lengthOf mem r.start < space.allocMax)) = true
      ↔ zoneFreeSpaceHash space r.size ≠ zoneFreeSpaceHash space n) := by
    intro r inside
    rw [linked.length inside]
    split
    · rename_i below
      rw [decide_eq_true_iff, ne_eq, ne_eq, graded.exact fit (fits r inside) below]
    rename_i not_below
    have last : zoneFreeSpaceHash space n = space.numHints := by
      have upper := (graded.range fit).2
      omega
    rw [decide_eq_true_iff, last, ne_eq, graded.last (fits r inside)]
    omega
  have none_before : bucket space (zoneFreeSpaceHash space n) k₁ = [] := by
    apply filter_eq_nil_iff.mpr
    intro r inside same
    exact (test r (mem_append_left _ inside)).mp (passed r inside) (of_decide_eq_true same)
  rw [bucket_append, none_before, nil_append]
  have cur_eq : cur = firstOf k₂ := (some.inj found).symm.trans pointer
  rw [cur_eq]
  cases k₂ with
  | nil => rfl
  | cons r t =>
    have same : zoneFreeSpaceHash space r.size = zoneFreeSpaceHash space n := by
      by_contra other
      have goes := (test r (mem_append_cons_self)).mpr other
      rw [stopped r t rfl] at goes
      cases goes
    rw [bucket_cons_same same]
    rfl

theorem Hinted.own (hinted : Hinted space l₁) (graded : Graded space Fit) {n : ℕ} (fit : Fit n) :
    space.hints (zoneFreeSpaceHash space n) =
      firstOf (bucket space (zoneFreeSpaceHash space n) l₁) := by
  have range := graded.range fit
  rcases hinted (zoneFreeSpaceHash space n) with hint | outside
  · exact hint
  · omega

/-- The entries with one index change, and its hint is right for them. -/
theorem Hinted.keep (hinted : Hinted space l₁) {hash : ℤ}
    (others : ∀ h, h ≠ hash → bucket space h l₂ = bucket space h l₁)
    (first : space.hints hash = firstOf (bucket space hash l₂)) : Hinted space l₂ := by
  intro h
  by_cases other : h = hash
  · exact .inl (other ▸ first)
  · rw [others h other]
    exact hinted h

/-- The entries with one index change, and its hint is set. -/
theorem Hinted.set (hinted : Hinted space l₁) {hash : ℤ}
    (others : ∀ h, h ≠ hash → bucket space h l₂ = bucket space h l₁)
    (first : cur = firstOf (bucket space hash l₂)) :
    SameTable space (space.setHint hash cur) ∧
      (space.setHint hash cur).numEntries = space.numEntries ∧
      Hinted (space.setHint hash cur) l₂ := by
  have same : SameTable space (space.setHint hash cur) := ⟨rfl, rfl, rfl, rfl, rfl⟩
  refine ⟨same, rfl, fun h => ?_⟩
  rw [same.bucket_eq]
  by_cases other : h = hash
  · subst other
    exact .inl ((Function.update_self ..).trans first)
  · rw [others h other]
    exact (hinted h).imp_left (Function.update_of_ne other ..).trans

/-- An entry is taken out of the hints; the rest of the list is behind `slot`. -/
theorem hintDrop_spec (graded : Graded space Fit) (hinted : Hinted space (l₁ ++ old :: l₂))
    (before : ∀ r ∈ l₁, r.start ≠ old.start) (linked : Linked mem slot l₂)
    (positive : ∀ r ∈ l₂, 0 < r.start) (fits : ∀ r ∈ l₂, Fit r.size) (fit : Fit old.size)
    (found : hintDrop turns space mem slot old.size old.start = some space') :
    SameTable space space' ∧ space'.numEntries = space.numEntries ∧ Hinted space' (l₁ ++ l₂) := by
  have hint := hinted.own graded fit
  rw [bucket_append, bucket_cons_same rfl] at hint
  have others : ∀ hash, hash ≠ zoneFreeSpaceHash space old.size →
      bucket space hash (l₁ ++ l₂) = bucket space hash (l₁ ++ old :: l₂) := by
    intro hash other
    rw [bucket_append, bucket_append, bucket_cons_other other.symm]
  rw [hintDrop] at found
  split at found
  case isTrue is_hint =>
    split at found
    · cases found
    rename_i cur searched
    have cur_eq := nextHint_spec graded linked positive fits fit searched
    rw [← some.inj found]
    have none_before : bucket space (zoneFreeSpaceHash space old.size) l₁ = [] := by
      by_contra some_before
      rw [firstOf_append_of_ne_nil some_before] at hint
      obtain ⟨r, inside, first⟩ := firstOf_mem some_before
      rw [is_hint, hint] at before
      exact before r (bucket_subset inside) first.symm
    exact hinted.set others (by rw [bucket_append, none_before, nil_append, cur_eq])
  case isFalse not_hint =>
    cases found
    have some_before : bucket space (zoneFreeSpaceHash space old.size) l₁ ≠ [] := by
      intro none_before
      rw [none_before] at hint
      exact not_hint hint.symm
    exact ⟨.refl, rfl, hinted.keep others (by
      rw [hint, bucket_append, firstOf_append_of_ne_nil some_before,
        firstOf_append_of_ne_nil some_before])⟩

/-- An entry is put into the hints. -/
theorem hintPut_spec (graded : Graded space Fit) (hinted : Hinted space (l₁ ++ l₂))
    (before : ∀ r ∈ l₁, 0 < r.start ∧ r.start < e.start) (after : ∀ r ∈ l₂, e.start < r.start)
    (fit : Fit e.size) :
    SameTable space (hintPut space e.start e.size) ∧
      (hintPut space e.start e.size).numEntries = space.numEntries ∧
      Hinted (hintPut space e.start e.size) (l₁ ++ e :: l₂) := by
  have hint := hinted.own graded fit
  rw [bucket_append] at hint
  have others : ∀ hash, hash ≠ zoneFreeSpaceHash space e.size →
      bucket space hash (l₁ ++ e :: l₂) = bucket space hash (l₁ ++ l₂) := by
    intro hash other
    rw [bucket_append, bucket_append, bucket_cons_other other.symm]
  rw [hintPut]
  split
  case isTrue lower =>
    have none_before : bucket space (zoneFreeSpaceHash space e.size) l₁ = [] := by
      by_contra some_before
      rw [firstOf_append_of_ne_nil some_before] at hint
      obtain ⟨r, inside, first⟩ := firstOf_mem some_before
      have bounds := before r (bucket_subset inside)
      rw [hint, first] at lower
      omega
    refine hinted.set others ?_
    rw [bucket_append, none_before, bucket_cons_same rfl]
    rfl
  case isFalse not_lower =>
    have some_before : bucket space (zoneFreeSpaceHash space e.size) l₁ ≠ [] := by
      intro none_before
      rw [none_before, nil_append] at hint
      apply not_lower
      by_cases none_after : bucket space (zoneFreeSpaceHash space e.size) l₂ = []
      · left
        rw [hint, none_after]
        rfl
      right
      obtain ⟨r, inside, first⟩ := firstOf_mem none_after
      rw [hint, first]
      exact after r (bucket_subset inside)
    exact ⟨.refl, rfl, hinted.keep others (by
      rw [hint, bucket_append, firstOf_append_of_ne_nil some_before,
        firstOf_append_of_ne_nil some_before])⟩

/-- Without its hint, an entry is not missed. -/
theorem hintDrop_of_ne (not_hint : old.start ≠ space.hints (zoneFreeSpaceHash space old.size)) :
    hintDrop turns space mem slot old.size old.start = some space := by
  rw [hintDrop]
  exact if_neg not_hint

variable (graded : Graded space Fit) (hinted : Hinted space (l₁ ++ old :: l₂))
  (before : ∀ r ∈ l₁, 0 < r.start ∧ r.start < e.start)

include graded hinted before

variable (grown : e.start ≤ old.start) (after : ∀ r ∈ l₂, old.start < r.start)
  (length : lengthOf mem e.start = e.size) (linked : Linked mem e.start l₂)
  (fits : ∀ r ∈ l₂, Fit r.size) (fit_old : Fit old.size) (fit : Fit e.size)

include grown after length linked fits fit_old fit

/-- An entry with a new index gives up its old hint and takes part in the new one. -/
theorem hintMove_spec (moved : hintMove turns space mem e.start old.size old.start = some space') :
    SameTable space space' ∧ space'.numEntries = space.numEntries ∧
      Hinted space' (l₁ ++ e :: l₂) := by
  rw [hintMove] at moved
  split at moved
  · cases moved
  rename_i dropped drop
  have off : ∀ r ∈ l₁, r.start ≠ old.start := by
    intro r inside
    have below := (before r inside).2
    omega
  have positive : ∀ r ∈ l₂, 0 < r.start := by
    intro r inside
    have above := after r inside
    omega
  obtain ⟨same, count, rest⟩ := hintDrop_spec graded hinted off linked positive fits fit_old drop
  rw [length] at moved
  have above : ∀ r ∈ l₂, e.start < r.start := by
    intro r inside
    exact Nat.lt_of_le_of_lt grown (after r inside)
  obtain ⟨same', count', put⟩ := hintPut_spec (same.graded graded) rest before above fit
  rw [← some.inj moved]
  exact ⟨same.trans same', count'.trans count, put⟩

/-- An entry has grown at its front, and its header has moved. -/
theorem hintPrepend_spec
    (moved : hintPrepend turns space mem e.start old.size old.start = some space') :
    SameTable space space' ∧ space'.numEntries = space.numEntries ∧
      Hinted space' (l₁ ++ e :: l₂) := by
  rw [hintPrepend, length] at moved
  split at moved
  case isTrue changed =>
    exact hintMove_spec graded hinted before grown after length linked fits fit_old fit moved
  case isFalse unchanged =>
    have own : zoneFreeSpaceHash space old.size = zoneFreeSpaceHash space e.size := by
      by_contra changed
      exact unchanged changed
    have hint := hinted.own graded fit_old
    rw [bucket_append, bucket_cons_same rfl] at hint
    have others : ∀ hash, hash ≠ zoneFreeSpaceHash space old.size →
        bucket space hash (l₁ ++ e :: l₂) = bucket space hash (l₁ ++ old :: l₂) := by
      intro hash other
      rw [bucket_append, bucket_append, bucket_cons_other other.symm,
        bucket_cons_other (own ▸ other.symm)]
    split at moved
    case isTrue is_hint =>
      rw [← some.inj moved]
      have none_before : bucket space (zoneFreeSpaceHash space old.size) l₁ = [] := by
        by_contra some_before
        rw [firstOf_append_of_ne_nil some_before] at hint
        obtain ⟨r, inside, first⟩ := firstOf_mem some_before
        have below := (before r (bucket_subset inside)).2
        rw [hint, first] at is_hint
        omega
      refine hinted.set others ?_
      rw [bucket_append, none_before, bucket_cons_same own.symm]
      rfl
    case isFalse not_hint =>
      cases moved
      have some_before : bucket space (zoneFreeSpaceHash space old.size) l₁ ≠ [] := by
        intro none_before
        rw [none_before] at hint
        exact not_hint hint.symm
      exact ⟨.refl, rfl, hinted.keep others (by
        rw [hint, bucket_append, firstOf_append_of_ne_nil some_before,
          firstOf_append_of_ne_nil some_before])⟩

omit grown after length linked fits fit_old fit

/-- An entry has grown at its end. -/
theorem hintAppend_spec (in_place : e.start = old.start) (after : ∀ r ∈ l₂, old.start < r.start)
    (length : lengthOf mem e.start = e.size) (linked : Linked mem e.start l₂)
    (fits : ∀ r ∈ l₂, Fit r.size) (fit_old : Fit old.size) (fit : Fit e.size)
    (moved : hintAppend turns space mem e.start old.size = some space') :
    SameTable space space' ∧ space'.numEntries = space.numEntries ∧
      Hinted space' (l₁ ++ e :: l₂) := by
  rw [hintAppend, length] at moved
  split at moved
  case isTrue changed =>
    have moved : hintMove turns space mem e.start old.size old.start = some space' :=
      in_place ▸ moved
    exact hintMove_spec graded hinted before (Nat.le_of_eq in_place) after length linked fits
      fit_old fit moved
  case isFalse unchanged =>
    have own : zoneFreeSpaceHash space old.size = zoneFreeSpaceHash space e.size := by
      by_contra changed
      exact unchanged changed
    rw [← some.inj moved]
    refine ⟨.refl, rfl, ?_⟩
    intro hash
    have first : firstOf (bucket space hash (l₁ ++ e :: l₂)) =
        firstOf (bucket space hash (l₁ ++ old :: l₂)) := by
      rw [bucket_append, bucket_append]
      by_cases here : zoneFreeSpaceHash space old.size = hash
      · rw [bucket_cons_same here, bucket_cons_same (own.symm.trans here)]
        cases bucket space hash l₁ with
        | nil => exact in_place
        | cons r l => rfl
      · rw [bucket_cons_other here, bucket_cons_other (own ▸ here)]
    rw [first]
    exact hinted hash

end Updates

end Darwin.Kern.Zalloc
