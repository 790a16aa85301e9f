import Darwin.Kern.Zalloc.Collect

/-!
# Giving pages back

The whole pages of the entries of a free space go back to the system, and what is left of the
entries stays.

## Main results

* `clip_spec`: the pages of one entry go.
* `reclaim_spec`: the loop of `zone_free_space_reclaim` over a free space.
-/

namespace Darwin.Kern.Zalloc

open List Darwin.Lib

section Clip

variable {mem mem' : Memory} {space space' : FreeSpace}
  {slot grain limit last start stop : ℕ} {e : Range} {l l₁ l₂ : List Range}

/-- A part of an entry is one if it starts and stops where an element may. -/
theorem Entry.part (entry : Entry grain limit e) (start_dvd : grain ∣ start)
    (stop_dvd : grain ∣ stop) (low : e.start ≤ start) (order : start < stop)
    (high : stop ≤ e.stop) : Entry grain limit ⟨start, stop - start⟩ := by
  have below := entry.below
  have bound := entry.fits.2.2
  unfold Range.stop at high below
  refine ⟨⟨Nat.sub_pos_of_lt order, Nat.dvd_sub stop_dvd start_dvd, ?_⟩, start_dvd, ?_⟩
  · dsimp only
    omega
  · unfold Range.stop
    dsimp only
    omega

/-- A part of an entry stands between what was around the entry. -/
theorem Placed.part (placed : Placed slot (l₁ ++ e :: l₂)) {k₁ : List Range}
    (around : Placed slot (k₁ ++ l₂)) (before : ∀ r ∈ k₁, r.stop ≤ start)
    (big : 16 ≤ stop - start) (low : e.start ≤ start) (high : stop ≤ e.stop) :
    Placed slot (k₁ ++ ⟨start, stop - start⟩ :: l₂) := by
  have positive := placed.positive e mem_append_cons_self
  apply around.insert big (by dsimp only; omega) _ before
  · intro r after
    have next := placed.le_start after
    show start + (stop - start) ≤ r.start
    omega
  · intro has
    apply placed.outside e mem_append_cons_self
    unfold Range.Has Range.stop at has ⊢
    unfold Range.stop at high
    dsimp only at has
    omega

theorem cover_clip (in_entry : e.start ≤ start ∧ start ≤ stop ∧ stop ≤ e.stop) (x : ℕ) :
    cover [⟨e.start, start - e.start⟩] x + cover [⟨start, stop - start⟩] x +
      cover [⟨stop, e.stop - stop⟩] x = cover [e] x := by
  cases e with
  | mk a n =>
    unfold Range.stop at in_entry ⊢
    dsimp only at in_entry ⊢
    rw [cover_mk, cover_mk, cover_mk, cover_mk]
    split_ifs <;> omega

theorem cover_empty (a x : ℕ) : cover [⟨a, 0⟩] x = 0 := by
  rw [cover_mk, if_neg]
  omega

/-- An entry is clipped to what lies outside of the pages. -/
theorem clip_spec (measured : Measured space grain limit)
    (linked : Linked mem space.entries (l₁ ++ e :: l₂))
    (placed : Placed space.entries (l₁ ++ e :: l₂))
    (entry : ∀ r ∈ l₁ ++ e :: l₂, Entry grain limit r) (hinted : Hinted space (l₁ ++ l₂))
    (count : space.numEntries = (l₁ ++ e :: l₂).length) (start_dvd : grain ∣ start)
    (stop_dvd : grain ∣ stop) (in_entry : e.start ≤ start ∧ start < stop ∧ stop ≤ e.stop)
    (clip : clipEntry space mem (slotAfter space.entries l₁) e.start start stop = (mem', space')) :
    ∃ m, Kept mem' space' grain limit (l₁ ++ (m ++ l₂)) ∧ SameTable space space' ∧
      (∀ x, cover m x + cover [⟨start, stop - start⟩] x = cover [e] x) ∧
      Frame mem mem' space.entries (l₁ ++ e :: l₂) := by
  have member : e ∈ l₁ ++ e :: l₂ := mem_append_cons_self
  have own := entry e member
  have others := forall_remove entry
  obtain ⟨front, -, -, length, rest⟩ := linked_append.mp linked
  have shape : ∀ x, cover (l₁ ++ e :: l₂) x = cover l₁ x + cover [e] x + cover l₂ x := by
    intro x
    rw [cover_append, cover_cons, Nat.add_assoc]
  have pieces := cover_clip ⟨in_entry.1, Nat.le_of_lt in_entry.2.1, in_entry.2.2⟩
  have last : e.start + e.size = e.stop := rfl
  rw [clipEntry, length, last, rest.first] at clip
  have end_dvd : grain ∣ e.stop := Nat.dvd_add own.aligned own.fits.2.1
  have finish : ∀ {m : List Range} {mem₁ : Memory} {space₁ : FreeSpace},
      Linked mem₁ space.entries (l₁ ++ (m ++ l₂)) → Placed space.entries (l₁ ++ (m ++ l₂)) →
      (∀ r ∈ m, Entry grain limit r) → SameTable space space₁ → Hinted space₁ (l₁ ++ (m ++ l₂)) →
      space₁.numEntries = space.numEntries + m.length - 1 →
      Kept mem₁ space₁ grain limit (l₁ ++ (m ++ l₂)) := by
    intro m mem₁ space₁ linked placed new same hinted counted
    refine ⟨same.entries.symm ▸ linked, same.entries.symm ▸ placed, ?_, hinted, ?_⟩
    · intro r inside
      rw [mem_append, mem_append] at inside
      rcases inside with before | new_one | after
      · exact others r (mem_append_left _ before)
      · exact new r new_one
      · exact others r (mem_append_right _ after)
    · rw [counted, count]
      simp only [length_append, length_cons]
      omega
  split at clip
  case isTrue some_behind =>
    have less : stop < e.stop := by omega
    have left := own.part stop_dvd end_dvd (by omega) less (by omega)
    have big := left.fits.big measured.header
    split at clip
    case isTrue at_start =>
      obtain rfl := at_start
      have placed' := placed.part placed.remove
        (fun r inside => Nat.le_trans (placed.stop_le inside) (by omega)) big (by omega) (by omega)
      have linked' := link_spec placed' front rest.ends
      have put := hintPut_spec measured.graded hinted (e := ⟨stop, e.stop - stop⟩)
        (fun _ => placed'.before) (fun _ => placed'.after) left.fits
      have length' := linked'.length mem_append_cons_self
      cases clip
      rw [hintInsert, length']
      obtain ⟨same, counted, hinted'⟩ := put
      refine ⟨[⟨stop, e.stop - stop⟩], finish linked' placed' ?_ same hinted' ?_, same, ?_, ?_⟩
      · intro r inside
        rw [mem_singleton.mp inside]
        exact left
      · rw [counted, length_singleton]
        omega
      · intro x
        have pieces := pieces x
        rw [Nat.sub_self, cover_empty] at pieces
        omega
      · intro x off out
        have pieces := pieces x
        rw [shape] at out
        apply link_frame placed.remove (e := ⟨stop, e.stop - stop⟩) big _ x off
        rw [cover_append, cover_append]
        omega
    case isFalse not_start =>
      have gap : e.start < start := by omega
      have left₁ := own.part own.aligned start_dvd (by omega) gap (by omega)
      have placed₁ := placed.part placed.remove (fun _ => placed.stop_le)
        (left₁.fits.big measured.header) (by omega) (by omega)
      have linked₁ := setLength_spec placed linked (start - e.start)
      have ends : ∀ r ∈ l₁ ++ [⟨e.start, start - e.start⟩], r.stop ≤ stop := by
        intro r inside
        rcases mem_append.mp inside with inside | own_piece
        · have order := placed.stop_le inside
          omega
        · rw [mem_singleton.mp own_piece]
          show e.start + (start - e.start) ≤ stop
          omega
      have placed' := placed.part (by rw [append_assoc]; exact placed₁) ends big (by omega)
        (by omega)
      have split₁ : Linked (mem.setLength e.start (start - e.start)) space.entries
          ((l₁ ++ [⟨e.start, start - e.start⟩]) ++ l₂) := by
        rw [append_assoc]
        exact linked₁
      obtain ⟨front₁, rest₁⟩ := linked_append.mp split₁
      have last₁ : slotAfter space.entries (l₁ ++ [⟨e.start, start - e.start⟩]) = e.start := by
        rw [slotAfter_append]
        rfl
      have linked' := link_spec placed' front₁ rest₁.ends
      rw [last₁] at linked'
      have table : SameTable space { space with numEntries := space.numEntries + 1 } :=
        ⟨rfl, rfl, rfl, rfl, rfl⟩
      obtain ⟨same₁, counted₁, hinted₁⟩ := hintPut_spec (e := ⟨e.start, start - e.start⟩)
        (table.graded measured.graded) (hinted.withNum _) (fun _ => placed₁.before)
        (fun _ => placed₁.after) left₁.fits
      rw [append_cons] at hinted₁
      obtain ⟨same₂, counted₂, hinted₂⟩ := hintPut_spec (e := ⟨stop, e.stop - stop⟩)
        ((table.trans same₁).graded measured.graded) hinted₁ (fun _ => placed'.before)
        (fun _ => placed'.after) left.fits
      have length₁ := linked'.length (r := ⟨e.start, start - e.start⟩)
        (mem_append_left _ mem_append_cons_self)
      have length₂ := linked'.length mem_append_cons_self
      cases clip
      rw [hintInsert, hintInsert, length₁, length₂]
      rw [append_assoc] at linked' placed' hinted₂
      refine ⟨[⟨e.start, start - e.start⟩, ⟨stop, e.stop - stop⟩],
        finish linked' placed' ?_ ((table.trans same₁).trans same₂) hinted₂ ?_,
        (table.trans same₁).trans same₂, ?_, ?_⟩
      · intro r inside
        rcases mem_cons.mp inside with rfl | inside
        · exact left₁
        · rw [mem_singleton.mp inside]
          exact left
      · rw [counted₂, counted₁]
        show space.numEntries + 1 = space.numEntries + 2 - 1
        omega
      · intro x
        have pieces := pieces x
        rw [cover_cons]
        omega
      · intro x off out
        have pieces := pieces x
        have first : mem.setLength e.start (start - e.start) x = mem x :=
          setLength_frame member placed x off out
        rw [shape] at out
        rw [append_cons] at placed₁
        have second := (link_frame placed₁ big (e.stop - stop) :
          Frame (mem.setLength e.start (start - e.start)) _ _ _) x off
        rw [last₁, cover_append, cover_append, cover_append] at second
        exact (second (by omega)).trans first
  case isFalse none_behind =>
    have none_behind : e.stop = stop := by
      by_contra other
      exact none_behind other
    split at clip
    case isTrue not_start =>
      have gap : e.start < start := by omega
      have left := own.part own.aligned start_dvd (by omega) gap (by omega)
      have placed' := placed.part placed.remove (fun _ => placed.stop_le)
        (left.fits.big measured.header) (by omega) (by omega)
      have linked' := setLength_spec placed linked (start - e.start)
      have put := hintPut_spec measured.graded hinted (e := ⟨e.start, start - e.start⟩)
        (fun _ => placed'.before) (fun _ => placed'.after) left.fits
      have length' := linked'.length mem_append_cons_self
      cases clip
      rw [hintInsert, length']
      obtain ⟨same, counted, hinted'⟩ := put
      refine ⟨[⟨e.start, start - e.start⟩], finish linked' placed' ?_ same hinted' ?_, same, ?_,
        setLength_frame member placed⟩
      · intro r inside
        rw [mem_singleton.mp inside]
        exact left
      · rw [counted, length_singleton]
        omega
      intro x
      have pieces := pieces x
      rw [none_behind, Nat.sub_self, cover_empty] at pieces
      omega
    case isFalse at_start =>
      have at_start : e.start = start := by
        by_contra other
        exact at_start other
      cases clip
      refine ⟨[], finish (unlink_spec placed.remove front rest.ends) placed.remove
        (forall_mem_nil _) ⟨rfl, rfl, rfl, rfl, rfl⟩ hinted ?_,
        ⟨rfl, rfl, rfl, rfl, rfl⟩, ?_, ?_⟩
      · show space.numEntries - 1 = space.numEntries + 0 - 1
        omega
      · intro x
        have pieces := pieces x
        rw [none_behind, at_start, Nat.sub_self, Nat.sub_self, cover_empty, cover_empty] at pieces
        rw [cover_nil]
        omega
      · intro x off out
        rw [shape] at out
        apply unlink_frame placed.remove x off
        rw [cover_append]
        omega

end Clip

section Reclaim

variable {mem mem' : Memory} {space space' : FreeSpace}
  {grain limit page zoneMin zoneMax walkTurns turns a n : ℕ} {e : Range}
  {pages pages' l l₁ l₂ : List Range}

/-- What becomes of a free space whose pages go back to the system. -/
structure Reclaimed (mem mem' : Memory) (space space' : FreeSpace) (grain limit page : ℕ)
    (l gone l' : List Range) : Prop where
  kept : Kept mem' space' grain limit l'
  same : SameTable space space'
  covers : ∀ x, cover l' x + cover gone x = cover l x
  pages : ∀ r ∈ gone, 0 < r.size ∧ page ∣ r.start ∧ page ∣ r.size
  frame : Frame mem mem' space.entries l

theorem roundPage_spec (positive : 0 < page) (small : a + page ≤ 4294967296) :
    a ≤ roundPage page a ∧ page ∣ roundPage page a := by
  unfold roundPage
  rw [Nat.mod_eq_of_lt (by omega)]
  refine ⟨?_, Nat.dvd_mul_left _ _⟩
  have division := Nat.div_add_mod (a + (page - 1)) page
  have remainder := Nat.mod_lt (a + (page - 1)) positive
  rw [Nat.mul_comm] at division
  omega

theorem truncPage_spec (page a : ℕ) : truncPage page a ≤ a ∧ page ∣ truncPage page a :=
  ⟨Nat.div_mul_le_self _ _, Nat.dvd_mul_left _ _⟩

/-- The loop of `zone_free_space_reclaim`, from the entries `l₂` on. -/
theorem reclaim_spec (measured : Measured space grain limit) (dvd : grain ∣ page)
    (positive : 0 < page) (kept : Kept mem space grain limit (l₁ ++ l₂))
    (reclaimed : reclaimEntries page zoneMin zoneMax walkTurns turns space mem
      (slotAfter space.entries l₁) pages = some (mem', space', pages')) :
    ∃ gone l', pages' = gone ++ pages ∧
      Reclaimed mem mem' space space' grain limit page (l₁ ++ l₂) gone l' := by
  induction turns generalizing space mem l₁ l₂ pages with
  | zero => cases reclaimed
  | succ turns ih =>
    have first : mem (slotAfter space.entries l₁) = firstOf l₂ :=
      (linked_append.mp kept.linked).2.first
    rw [reclaimEntries, first] at reclaimed
    dsimp only at reclaimed
    cases l₂ with
    | nil =>
      have null : firstOf [] = 0 := rfl
      rw [null, if_pos rfl] at reclaimed
      cases reclaimed
      exact ⟨[], _, rfl, kept, .refl, fun x => rfl, fun r inside => absurd inside not_mem_nil,
        .refl⟩
    | cons e t =>
      have member : e ∈ l₁ ++ e :: t := mem_append_cons_self
      have some_start := kept.placed.positive e member
      have head : firstOf (e :: t) = e.start := rfl
      rw [head, kept.linked.length member, if_neg (Nat.ne_of_gt some_start)] at reclaimed
      split at reclaimed
      case isFalse =>
        -- The entry is skipped.
        rw [append_cons] at kept ⊢
        have next : slotAfter space.entries (l₁ ++ [e]) = e.start := by
          rw [slotAfter_append]
          rfl
        rw [← next] at reclaimed
        exact ih measured kept reclaimed
      case isTrue whole =>
        obtain ⟨long, order, -, -⟩ := whole
        have rest : Linked mem e.start t := (linked_append.mp kept.linked).2.2.2.2
        have below := (kept.entry e member).below
        have placed := kept.placed
        obtain ⟨start_le, start_dvd⟩ := roundPage_spec positive
          (show e.start + page ≤ 4294967296 by unfold Range.stop at below; omega)
        obtain ⟨stop_le, stop_dvd⟩ := truncPage_spec page (e.start + e.size)
        generalize roundPage page e.start = start at reclaimed order start_le start_dvd
        generalize truncPage page (e.start + e.size) = stop at reclaimed order stop_le stop_dvd
        rw [hintDelete, kept.linked.length member] at reclaimed
        split at reclaimed
        · cases reclaimed
        rename_i space₁ drop
        have behind : ∀ r ∈ t, r ∈ l₁ ++ e :: t := fun r inside =>
          mem_append_right _ (mem_cons_of_mem _ inside)
        obtain ⟨same₁, count₁, hinted₁⟩ := hintDrop_spec measured.graded kept.hinted
          (fun r inside => Nat.ne_of_lt (placed.before inside).2) rest
          (fun r inside => placed.positive r (behind r inside))
          (fun r inside => (kept.entry r (behind r inside)).fits) (kept.entry e member).fits drop
        have entries := same₁.entries
        generalize clipped : clipEntry space₁ mem (slotAfter space.entries l₁) e.start start stop =
          outcome at reclaimed
        obtain ⟨mem₂, space₂⟩ := outcome
        obtain ⟨m, kept₂, same₂, pieces, frame₂⟩ := clip_spec (same₁.measured measured)
          (entries.symm ▸ kept.linked) (entries.symm ▸ placed) kept.entry hinted₁
          (count₁.trans kept.count) (Nat.dvd_trans dvd start_dvd) (Nat.dvd_trans dvd stop_dvd)
          ⟨start_le, order, stop_le⟩ (entries.symm ▸ clipped)
        rw [entries] at frame₂
        have same := same₁.trans same₂
        have shape : ∀ x, cover (l₁ ++ (m ++ t)) x + cover [⟨start, stop - start⟩] x =
            cover (l₁ ++ e :: t) x := by
          intro x
          have pieces := pieces x
          rw [cover_append, cover_append, cover_append, cover_cons e t]
          omega
        have long_enough : 16 ≤ stop - start := by
          have sizes : Fits grain (stop - start + 1) (stop - start) :=
            ⟨by omega, Nat.dvd_trans dvd (Nat.dvd_sub stop_dvd start_dvd), by omega⟩
          exact sizes.big measured.header
        -- The header of the pages is in the pages, and no entry is.
        have in_pages : ∀ {n}, n < 16 → cover (l₁ ++ (m ++ t)) (start + n) = 0 ∧
            start + n ≠ space.entries := by
          intro n small
          have here : cover [⟨start, stop - start⟩] (start + n) = 1 := by
            rw [cover_mk, if_pos (by omega)]
          have few := placed.cover_le (start + n)
          have shape := shape (start + n)
          refine ⟨by omega, ?_⟩
          intro at_slot
          have none_there : cover (l₁ ++ e :: t) space.entries = 0 :=
            cover_eq_zero_iff.mpr placed.outside
          rw [at_slot] at shape here
          omega
        have first_word : cover (l₁ ++ (m ++ t)) start = 0 ∧ start ≠ space.entries :=
          in_pages (n := 0) (by decide)
        have second_word := in_pages (n := 4) (by decide)
        generalize chained : (pages.head?.map Range.start).getD 0 = chain at reclaimed
        have off_pages : ∀ {x}, x ≠ start → x ≠ start + 4 →
            (mem₂.setLength start (stop - start)).setNext start chain x = mem₂ x := by
          intro x off_next off_length
          exact (Memory.set_other off_next).trans (Memory.set_other off_length)
        have kept₃ : Kept ((mem₂.setLength start (stop - start)).setNext start chain) space₂ grain
            limit (l₁ ++ (m ++ t)) := by
          apply kept₂.congr
          · rw [same.entries]
            exact off_pages (Ne.symm first_word.2) (Ne.symm second_word.2)
          intro a covered
          apply off_pages
          · rintro rfl
            have clear_word := first_word.1
            omega
          · rintro rfl
            have clear_word := second_word.1
            omega
        rw [← same.entries] at reclaimed
        obtain ⟨gone, l', rfl, later⟩ := ih (same.measured measured) kept₃ reclaimed
        refine ⟨gone ++ [⟨start, stop - start⟩], l', ?_, later.kept, same.trans later.same,
          ?_, ?_, ?_⟩
        · rw [append_assoc, singleton_append]
        · intro x
          have rest := later.covers x
          have shape := shape x
          rw [cover_append]
          omega
        · intro r inside
          rcases mem_append.mp inside with inside | last
          · exact later.pages r inside
          · rw [mem_singleton.mp last]
            exact ⟨Nat.sub_pos_of_lt order, start_dvd, Nat.dvd_sub stop_dvd start_dvd⟩
        · have frame := later.frame
          rw [same.entries] at frame
          intro a off out
          have pieces := shape a
          have off_page : ¬ (start ≤ a ∧ a < start + (stop - start)) := by
            intro here
            rw [cover_mk, if_pos here] at pieces
            omega
          have outer := frame a off (by omega)
          rw [outer, off_pages (by omega) (by omega), frame₂ a off out]

end Reclaim

end Darwin.Kern.Zalloc
