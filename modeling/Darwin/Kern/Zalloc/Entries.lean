import Darwin.Kern.Zalloc.Basic

/-!
# Free lists in memory

The entries of a free list as a list of ranges, in the order of their addresses, each with the
length of its range and a pointer to the place that points at it.

## Main results

* `link_spec`, `unlink_spec`, `setLength_spec`: the three ways in which a list is edited.
* `walk_spec`: where a search ends.
-/

namespace Darwin.Kern.Zalloc

open List Darwin.Lib Memory

/-- The list behind `slot` holds these entries. -/
def Linked (mem : Memory) : ℕ → List Range → Prop
  | slot, [] => mem slot = 0
  | slot, r :: l =>
    mem slot = r.start ∧ mem (r.start + 8) = slot ∧ lengthOf mem r.start = r.size ∧
      Linked mem r.start l

/-- The list behind `slot` begins with these entries. -/
def Begins (mem : Memory) : ℕ → List Range → Prop
  | _, [] => True
  | slot, r :: l =>
    mem slot = r.start ∧ mem (r.start + 8) = slot ∧ lengthOf mem r.start = r.size ∧
      Begins mem r.start l

/-- These entries make the end of a list, wherever it is linked from. -/
def Ends (mem : Memory) : List Range → Prop
  | [] => True
  | r :: l => lengthOf mem r.start = r.size ∧ Linked mem r.start l

/-- The pointer to the first of these entries. -/
def firstOf : List Range → ℕ
  | [] => 0
  | r :: _ => r.start

/-- The place behind the last of these entries. -/
def slotAfter (slot : ℕ) : List Range → ℕ
  | [] => slot
  | r :: l => slotAfter r.start l

/-- The entries are in order and apart, with room for a header each, and the head of the list is
somewhere else. -/
structure Placed (slot : ℕ) (l : List Range) : Prop where
  big : ∀ r ∈ l, 16 ≤ r.size
  positive : ∀ r ∈ l, 0 < r.start
  sorted : l.Pairwise fun a b => a.stop ≤ b.start
  outside : ∀ r ∈ l, ¬ r.Has slot

section Lists

variable {mem mem' : Memory} {slot p : ℕ} {r e : Range} {l l₁ l₂ : List Range}

theorem slotAfter_append : slotAfter slot (l₁ ++ l₂) = slotAfter (slotAfter slot l₁) l₂ := by
  induction l₁ generalizing slot with
  | nil => rfl
  | cons r l ih => exact ih

theorem slotAfter_mem (slot : ℕ) (l : List Range) :
    slotAfter slot l = slot ∨ ∃ r ∈ l, slotAfter slot l = r.start := by
  induction l generalizing slot with
  | nil => exact .inl rfl
  | cons r l ih =>
    right
    rcases ih r.start with same | ⟨r', inside, same⟩
    · exact ⟨r, mem_cons_self, same⟩
    · exact ⟨r', mem_cons_of_mem _ inside, same⟩

theorem linked_append : Linked mem slot (l₁ ++ l₂) ↔
    Begins mem slot l₁ ∧ Linked mem (slotAfter slot l₁) l₂ := by
  induction l₁ generalizing slot with
  | nil => exact (true_and _).symm ▸ Iff.rfl
  | cons r l ih =>
    simp only [cons_append, Linked, Begins, slotAfter]
    rw [ih]
    simp only [and_assoc]

theorem Linked.first (linked : Linked mem slot l) : mem slot = firstOf l := by
  cases l with
  | nil => exact linked
  | cons r l => exact linked.1

theorem Linked.ends (linked : Linked mem slot l) : Ends mem l := by
  cases l with
  | nil => trivial
  | cons r l => exact linked.2.2

theorem Ends.linked (ends : Ends mem l) (first : mem slot = firstOf l)
    (back : ∀ r t, l = r :: t → mem (r.start + 8) = slot) : Linked mem slot l := by
  cases l with
  | nil => exact first
  | cons r l => exact ⟨first, back r l rfl, ends⟩

theorem Placed.sublist {l' : List Range} (placed : Placed slot l) (less : l'.Sublist l) :
    Placed slot l' where
  big r inside := placed.big r (less.subset inside)
  positive r inside := placed.positive r (less.subset inside)
  sorted := placed.sorted.sublist less
  outside r inside := placed.outside r (less.subset inside)

/-- Behind an entry, that entry is the head of the rest. -/
theorem Placed.tail (placed : Placed slot (r :: l)) : Placed r.start l where
  big r' inside := placed.big r' (mem_cons_of_mem _ inside)
  positive r' inside := placed.positive r' (mem_cons_of_mem _ inside)
  sorted := (pairwise_cons.mp placed.sorted).2
  outside r' inside has := by
    have order := (pairwise_cons.mp placed.sorted).1 r' inside
    have big := placed.big r mem_cons_self
    unfold Range.Has Range.stop at *
    omega

theorem Placed.rest (placed : Placed slot (l₁ ++ l₂)) : Placed (slotAfter slot l₁) l₂ := by
  induction l₁ generalizing slot with
  | nil => exact placed
  | cons r l ih => exact ih placed.tail

theorem Placed.header (placed : Placed slot l) (inside : r ∈ l) {n : ℕ} (small : n < 16) :
    r.Has (r.start + n) := by
  have big := placed.big r inside
  unfold Range.Has Range.stop
  omega

/-- A list depends only on its head and on the words of its entries. -/
theorem Linked.congr (linked : Linked mem slot l) (placed : Placed slot l)
    (head : mem' slot = mem slot) (same : ∀ r ∈ l, ∀ a, r.Has a → mem' a = mem a) :
    Linked mem' slot l := by
  induction l generalizing slot with
  | nil => exact head.trans linked
  | cons r l ih =>
    obtain ⟨first, back, length, rest⟩ := linked
    have own := same r mem_cons_self
    have here := fun {n} => placed.header (n := n) mem_cons_self
    refine ⟨head.trans first, ?_, ?_, ?_⟩
    · rw [own _ (here (by decide)), back]
    · exact (own _ (here (by decide))).trans length
    apply ih rest placed.tail
    · exact own _ (here (n := 0) (by decide))
    · intro r' inside
      exact same r' (mem_cons_of_mem _ inside)

/-- The beginning of a list does not depend on what the last of its entries points at. -/
theorem Begins.congr (begins : Begins mem slot l) (placed : Placed slot l)
    (same : ∀ a, a ≠ slotAfter slot l → (a = slot ∨ ∃ r ∈ l, r.Has a) → mem' a = mem a) :
    Begins mem' slot l := by
  induction l generalizing slot with
  | nil => trivial
  | cons r l ih =>
    obtain ⟨first, back, length, rest⟩ := begins
    have here := fun {n} => placed.header (n := n) mem_cons_self
    -- The place behind the last entry is the start of one of them.
    have last : ∃ r' ∈ r :: l, slotAfter slot (r :: l) = r'.start := by
      rcases slotAfter_mem r.start l with same | ⟨r', inside, same⟩
      · exact ⟨r, mem_cons_self, same⟩
      · exact ⟨r', mem_cons_of_mem _ inside, same⟩
    obtain ⟨r', inside', last_eq⟩ := last
    have not_head : slot ≠ slotAfter slot (r :: l) := by
      intro eq
      apply placed.outside r' inside'
      rw [eq, last_eq]
      exact placed.header (n := 0) inside' (by decide)
    have not_field : ∀ n, 0 < n → n < 16 → r.start + n ≠ slotAfter slot (r :: l) := by
      intro n positive small eq
      rw [last_eq] at eq
      rcases mem_cons.mp inside' with rfl | later
      · omega
      have order := (pairwise_cons.mp placed.sorted).1 r' later
      have big := placed.big r mem_cons_self
      unfold Range.stop at order
      omega
    refine ⟨?_, ?_, ?_, ?_⟩
    · rw [same slot not_head (.inl rfl), first]
    · rw [same _ (not_field 8 (by decide) (by decide))
        (.inr ⟨r, mem_cons_self, here (by decide)⟩), back]
    · exact (same _ (not_field 4 (by decide) (by decide))
        (.inr ⟨r, mem_cons_self, here (by decide)⟩)).trans length
    apply ih rest placed.tail
    rintro a not_last (rfl | ⟨r'', inside, has⟩)
    · exact same _ not_last (.inr ⟨r, mem_cons_self, here (n := 0) (by decide)⟩)
    · exact same _ not_last (.inr ⟨r'', mem_cons_of_mem _ inside, has⟩)

/-- The end of a list does not depend on what its first entry points back at. -/
theorem Ends.congr (ends : Ends mem l) (placed : Placed slot l)
    (same : ∀ r ∈ l, ∀ a, r.Has a → a ≠ firstOf l + 8 → mem' a = mem a) : Ends mem' l := by
  cases l with
  | nil => trivial
  | cons r l =>
    obtain ⟨length, rest⟩ := ends
    have here := fun {n} => placed.header (n := n) mem_cons_self
    refine ⟨?_, rest.congr placed.tail ?_ ?_⟩
    · refine (same r mem_cons_self _ (here (n := 4) (by decide)) ?_).trans length
      show r.start + 4 ≠ r.start + 8
      omega
    · refine same r mem_cons_self _ (here (n := 0) (by decide)) ?_
      show r.start ≠ r.start + 8
      omega
    intro r' inside a has
    refine same r' (mem_cons_of_mem _ inside) a has ?_
    show a ≠ r.start + 8
    have order := (pairwise_cons.mp placed.sorted).1 r' inside
    have big := placed.big r mem_cons_self
    unfold Range.Has at has
    unfold Range.stop at order
    omega

/-- The first entries of a list that a search passes. -/
theorem walk_spec {goesOn : ℕ → Bool} {turns last : ℕ} (linked : Linked mem slot l)
    (positive : ∀ r ∈ l, 0 < r.start) (found : walk mem goesOn turns slot = some last) :
    ∃ l₁ l₂, l = l₁ ++ l₂ ∧ last = slotAfter slot l₁ ∧ mem last = firstOf l₂ ∧
      (∀ r ∈ l₁, goesOn r.start = true) ∧ ∀ r t, l₂ = r :: t → goesOn r.start = false := by
  induction turns generalizing slot l with
  | zero => cases found
  | succ turns ih =>
    rw [walk] at found
    cases l with
    | nil =>
      rw [if_neg (fun some_left => some_left.1 linked)] at found
      cases found
      exact ⟨[], [], rfl, rfl, linked, fun r inside => absurd inside not_mem_nil,
        fun r t split => by cases split⟩
    | cons r l =>
      obtain ⟨first, back, length, rest⟩ := linked
      rw [first] at found
      split at found
      case isTrue goes =>
        obtain ⟨l₁, l₂, rfl, last_eq, pointer, passed, stopped⟩ :=
          ih rest (fun r' inside => positive r' (mem_cons_of_mem _ inside)) found
        refine ⟨r :: l₁, l₂, rfl, last_eq, pointer, ?_, stopped⟩
        intro r' inside
        rcases mem_cons.mp inside with rfl | inside
        · exact goes.2
        · exact passed r' inside
      case isFalse stays =>
        cases found
        refine ⟨[], r :: l, rfl, rfl, first, fun r inside => absurd inside not_mem_nil, ?_⟩
        rintro r' t ⟨⟩
        have not_null : r.start ≠ 0 := Nat.ne_of_gt (positive r mem_cons_self)
        cases goes : goesOn r.start with
        | false => rfl
        | true => exact absurd ⟨not_null, goes⟩ stays

end Lists

section Edits

variable {mem : Memory} {slot p a n next : ℕ} {r e : Range} {l l₁ l₂ : List Range}

theorem Memory.set_self (address value : ℕ) : mem.set address value address = value :=
  Function.update_self ..

theorem Memory.set_other {address value : ℕ} (other : a ≠ address) :
    mem.set address value a = mem a :=
  Function.update_of_ne other ..

/-- The words that a link sets. -/
theorem link_other (link : a ≠ p) (field₀ : a ≠ n) (field₄ : a ≠ n + 4) (field₈ : a ≠ n + 8)
    (back : next ≠ 0 → a ≠ next + 8) {length : ℕ} : mem.link p n length next a = mem a := by
  unfold Memory.link Memory.setNext Memory.setLength Memory.setPred
  rw [Memory.set_other link, Memory.set_other field₈]
  split
  · rename_i some_next
    rw [set_other (back some_next), set_other field₀, set_other field₄]
  · rw [set_other field₀, set_other field₄]

theorem unlink_other (link : a ≠ p) (back : next ≠ 0 → a ≠ next + 8) :
    mem.unlink p next a = mem a := by
  unfold unlink setNext setPred
  split
  · rename_i some_next
    rw [set_other (back some_next), set_other link]
  · rw [set_other link]

/-- The place behind the entries in front is none of the words of an entry behind it. -/
theorem Placed.slot_ne (placed : Placed slot (l₁ ++ l₂)) (inside : r ∈ l₂) (has : r.Has a) :
    a ≠ slotAfter slot l₁ := by
  rintro rfl
  exact placed.rest.outside r inside has

theorem Placed.apart (placed : Placed slot (l₁ ++ e :: l₂)) (inside : r ∈ l₁ ∨ r ∈ l₂)
    (has : r.Has a) : ¬ e.Has a := by
  have order := placed.sorted
  rw [pairwise_append, pairwise_cons] at order
  unfold Range.Has at *
  rcases inside with before | after
  · have apart := order.2.2 r before e mem_cons_self
    omega
  · have apart := order.2.1.1 r after
    omega

theorem firstOf_ne_zero (placed : Placed slot l) (some_left : l ≠ []) : firstOf l ≠ 0 := by
  cases l with
  | nil => exact absurd rfl some_left
  | cons r l => exact Nat.ne_of_gt (placed.positive r mem_cons_self)

theorem firstOf_eq_zero (placed : Placed slot l) : firstOf l = 0 ↔ l = [] := by
  constructor
  · intro none_left
    by_contra some_left
    exact firstOf_ne_zero placed some_left none_left
  · rintro rfl
    rfl

/-- The back pointer of the first entry behind a place is apart from what is in front. -/
theorem Placed.back_ne (placed : Placed slot (l₁ ++ l₂)) (some_next : firstOf l₂ ≠ 0)
    (in_front : a = slot ∨ ∃ r ∈ l₁, r.Has a) : a ≠ firstOf l₂ + 8 := by
  cases l₂ with
  | nil => exact absurd rfl some_next
  | cons e l₂ =>
    have member : e ∈ l₁ ++ e :: l₂ := mem_append_cons_self
    have here := placed.header (n := 8) member (by decide)
    rintro rfl
    rcases in_front with same | ⟨r, inside, has⟩
    · apply placed.outside e member
      rw [← same]
      exact here
    · exact placed.apart (.inl inside) has here

/-- A new entry between the entries in front and those behind. -/
theorem link_spec (placed : Placed slot (l₁ ++ e :: l₂)) (front : Begins mem slot l₁)
    (back : Ends mem l₂) :
    Linked (mem.link (slotAfter slot l₁) e.start e.size (firstOf l₂)) slot (l₁ ++ e :: l₂) := by
  have member : e ∈ l₁ ++ e :: l₂ := mem_append_cons_self
  have here := fun {n} => placed.header (n := n) member
  have placed₁ := placed.sublist (sublist_append_left l₁ (e :: l₂))
  have placed₂ : Placed e.start l₂ := placed.rest.tail
  have placed' : Placed slot (l₁ ++ l₂) :=
    placed.sublist (List.Sublist.append_left (sublist_cons_self e l₂) l₁)
  have slot_ne := fun {a} => placed.slot_ne (a := a) mem_cons_self
  have in_back : ∀ some_next : firstOf l₂ ≠ 0, ∀ {n}, n < 16 → e.start + n ≠ firstOf l₂ + 8 := by
    intro some_next n small
    cases l₂ with
    | nil => exact absurd rfl some_next
    | cons r l =>
      rintro eq
      apply placed.apart (.inr (mem_cons_self)) (placed₂.header mem_cons_self (by decide : 8 < 16))
      have field := here small
      rwa [eq] at field
  refine linked_append.mpr ⟨front.congr placed₁ ?_, ?_⟩
  · intro a not_last in_front
    have not_own : ∀ {n}, n < 16 → a ≠ e.start + n := by
      rintro n small rfl
      rcases in_front with same | ⟨r, inside, has⟩
      · apply placed.outside e member
        rw [← same]
        exact here small
      · exact placed.apart (.inl inside) has (here small)
    exact link_other not_last (not_own (n := 0) (by decide)) (not_own (by decide))
      (not_own (by decide)) fun some_next => placed'.back_ne some_next in_front
  · refine ⟨?_, ?_, ?_, ?_⟩
    · unfold link setNext
      exact set_self ..
    · have own := slot_ne (here (n := 8) (by decide))
      unfold link setNext setPred
      rw [set_other own, set_self]
    · have own := slot_ne (here (n := 4) (by decide))
      unfold lengthOf link setNext setPred setLength
      rw [set_other own, set_other (by omega)]
      split
      · rename_i some_next
        rw [set_other (in_back some_next (by decide)), set_other (by omega),
          set_self]
      · rw [set_other (by omega), set_self]
    · have behind : Ends (mem.link (slotAfter slot l₁) e.start e.size (firstOf l₂)) l₂ := by
        apply back.congr placed₂
        intro r inside a has not_back
        have not_own : ∀ {n}, n < 16 → a ≠ e.start + n := by
          rintro n small rfl
          exact placed.apart (.inr inside) has (here small)
        exact link_other (placed.slot_ne (mem_cons_of_mem _ inside) has)
          (not_own (n := 0) (by decide)) (not_own (by decide)) (not_own (by decide))
          fun _ => not_back
      apply behind.linked
      · have own : e.start ≠ slotAfter slot l₁ := slot_ne (here (n := 0) (by decide))
        unfold link setNext setPred
        rw [set_other own, set_other (by omega)]
        split
        · rename_i some_next
          have not_back : e.start ≠ firstOf l₂ + 8 := in_back some_next (n := 0) (by decide)
          rw [set_other not_back, set_self]
        · rw [set_self]
      · rintro r t rfl
        have some_next : firstOf (r :: t) ≠ 0 := firstOf_ne_zero placed₂ (cons_ne_nil _ _)
        have field := placed₂.header (n := 8) mem_cons_self (by decide)
        have not_slot := placed.slot_ne (mem_cons_of_mem _ mem_cons_self) field
        have not_own : r.start + 8 ≠ e.start + 8 := fun eq => in_back some_next (by decide) eq.symm
        unfold link setNext setPred
        rw [set_other not_slot, set_other not_own, if_pos some_next]
        exact set_self ..

/-- The entries in front and those behind are linked to each other. -/
theorem unlink_spec (placed : Placed slot (l₁ ++ l₂)) (front : Begins mem slot l₁)
    (back : Ends mem l₂) :
    Linked (mem.unlink (slotAfter slot l₁) (firstOf l₂)) slot (l₁ ++ l₂) := by
  have placed₁ := placed.sublist (sublist_append_left l₁ l₂)
  have placed₂ := placed.rest
  refine linked_append.mpr ⟨front.congr placed₁ ?_, ?_⟩
  · intro a not_last in_front
    exact unlink_other not_last fun some_next => placed.back_ne some_next in_front
  have behind : Ends (mem.unlink (slotAfter slot l₁) (firstOf l₂)) l₂ := by
    apply back.congr placed₂
    intro r inside a has not_back
    exact unlink_other (placed.slot_ne inside has) fun _ => not_back
  apply behind.linked
  · unfold unlink setNext setPred
    split
    · rename_i some_next
      cases l₂ with
      | nil => exact absurd rfl some_next
      | cons r l =>
        have field := placed₂.header (n := 8) mem_cons_self (by decide)
        have not_slot : firstOf (r :: l) + 8 ≠ slotAfter slot l₁ :=
          placed.slot_ne mem_cons_self field
        rw [set_other (Ne.symm not_slot), set_self]
    · rw [set_self]
  · rintro r t rfl
    have some_next : firstOf (r :: t) ≠ 0 := firstOf_ne_zero placed₂ (cons_ne_nil _ _)
    unfold unlink setNext setPred
    rw [if_pos some_next]
    exact set_self ..

/-- The length of an entry is set. -/
theorem setLength_spec (placed : Placed slot (l₁ ++ e :: l₂))
    (linked : Linked mem slot (l₁ ++ e :: l₂)) (n : ℕ) :
    Linked (mem.setLength e.start n) slot (l₁ ++ ⟨e.start, n⟩ :: l₂) := by
  obtain ⟨front, first, back, length, rest⟩ := linked_append.mp linked
  have member : e ∈ l₁ ++ e :: l₂ := mem_append_cons_self
  have here := fun {n} => placed.header (n := n) member
  have placed₁ := placed.sublist (sublist_append_left l₁ (e :: l₂))
  have same : ∀ {a}, a ≠ e.start + 4 → mem.setLength e.start n a = mem a := fun other =>
    set_other other
  refine linked_append.mpr ⟨front.congr placed₁ ?_, ?_, ?_, ?_, ?_⟩
  · rintro a - in_front
    apply same
    rintro rfl
    rcases in_front with eq | ⟨r, inside, has⟩
    · apply placed.outside e member
      rw [← eq]
      exact here (by decide)
    · exact placed.apart (.inl inside) has (here (by decide))
  · have field := placed.slot_ne mem_cons_self (here (n := 4) (by decide))
    exact (same (Ne.symm field)).trans first
  · exact (same (by dsimp only; omega)).trans back
  · exact set_self ..
  apply rest.congr placed.rest.tail
  · exact same (by omega)
  intro r inside a has
  apply same
  rintro rfl
  exact placed.apart (.inr inside) has (here (by decide))

end Edits

end Darwin.Kern.Zalloc
