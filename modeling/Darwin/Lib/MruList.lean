import Darwin.Lib.Ring

/-!
# Lists with two ends

A list that ends in nil on both sides: `first` and `last` point to its ends, and each node to the
next and the previous one.  Nil closes it to a ring, with nil as the head.  A node is moved to the
front or to the back by redirecting the pointers around it.

## Main results

* `Ends.Holds.moveToFront`, `Ends.Holds.moveToBack` - the list after a move
* `Ends.Holds.trace` - following the pointers visits the list
-/

namespace Darwin.Lib

open List Option
open Function (update update_of_ne update_self)

section Reverse

variable {N : Type*} {s : Links N} {a b q : N} {l : List N}

/-- The links read backwards. -/
def Links.flip (s : Links N) : Links N := ⟨s.prev, s.next⟩

theorem Path.reverse (path : Path s a l b) : Path s.flip b l.reverse a := by
  induction l generalizing a with
  | nil => exact ⟨path.prev, path.next⟩
  | cons x l ih =>
    rw [reverse_cons]
    exact Path.append.mpr ⟨ih path.2, path.1.prev, path.1.next⟩

theorem Ring.reverse (ring : Ring s q l) : Ring s.flip q l.reverse := by
  refine ⟨ring.path.reverse, nodup_cons.mpr ⟨?_, ?_⟩⟩
  · rw [mem_reverse]
    exact ring.head_not_mem
  · rw [nodup_reverse]
    exact (nodup_cons.mp ring.nodup).2

end Reverse

/-- The pointers of a list with two ends. -/
structure Ends (N : Type*) where
  first : Option N
  last : Option N
  next : N → Option N
  prev : N → Option N

namespace Ends

variable {N : Type*} {s : Ends N} {l : List N} {x : N}

/-- The list as a ring with nil as its head. -/
def links (s : Ends N) : Links (Option N) where
  next
    | none => s.first
    | some x => s.next x
  prev
    | none => s.last
    | some x => s.prev x

/-- The pointers are those of a list. -/
def Holds (s : Ends N) (l : List N) : Prop := Ring s.links none (l.map some)

/-- The list read from its other end. -/
def flip (s : Ends N) : Ends N := ⟨s.last, s.first, s.prev, s.next⟩

theorem links_flip : s.flip.links = s.links.flip := by
  rw [links, links, Links.flip]
  rfl

theorem Holds.flip (holds : s.Holds l) : s.flip.Holds l.reverse := by
  rw [Holds, links_flip, map_reverse]
  exact Ring.reverse holds

theorem Holds.nodup (holds : s.Holds l) : l.Nodup :=
  (nodup_cons.mp (Ring.nodup holds)).2.of_map

theorem Holds.first_eq (holds : s.Holds l) : s.first = l.head? := by
  have head := Ring.next_head holds
  cases l with
  | nil => exact head
  | cons x l => exact head

theorem Holds.last_eq (holds : s.Holds l) : s.last = l.getLast? := by
  have head := holds.flip.first_eq
  rwa [List.head?_reverse] at head

section Split

variable {l₁ l₂ : List N}

theorem Holds.next_eq (holds : s.Holds (l₁ ++ x :: l₂)) : s.next x = l₂.head? := by
  rw [Holds, map_append, map_cons] at holds
  have elem := Ring.next_elem holds
  cases l₂ with
  | nil => exact elem
  | cons y l => exact elem

theorem Holds.prev_eq (holds : s.Holds (l₁ ++ x :: l₂)) : s.prev x = l₁.getLast? := by
  have back := holds.flip
  rw [reverse_append, reverse_cons, append_assoc, singleton_append] at back
  have elem := back.next_eq
  rwa [List.head?_reverse] at elem

end Split

/-- Behind the first node of a list there is one before. -/
theorem Holds.prev_isSome (holds : s.Holds l) (mem : x ∈ l) (moves : s.first ≠ some x) :
    ∃ f p, s.first = some f ∧ s.prev x = some p := by
  obtain ⟨l₁, l₂, rfl⟩ := append_of_mem mem
  have first := holds.first_eq
  have before := holds.prev_eq
  cases l₁ with
  | nil => exact absurd first moves
  | cons f l =>
    rw [List.getLast?_cons] at before
    exact ⟨f, _, first, before⟩

theorem Holds.next_isSome (holds : s.Holds l) (mem : x ∈ l) (moves : s.last ≠ some x) :
    ∃ f p, s.last = some f ∧ s.next x = some p :=
  holds.flip.prev_isSome (mem_reverse.mpr mem) moves

/-- Pointers that agree with the positions in a list are those of the list. -/
theorem holds_of_getElem? (nodup : l.Nodup) (first : s.first = l[0]?) (last : s.last = l.getLast?)
    (next : ∀ i x, l[i]? = some x → s.next x = l[i + 1]?)
    (prev_first : ∀ x, l[0]? = some x → s.prev x = none)
    (prev : ∀ i x, l[i + 1]? = some x → s.prev x = l[i]?) : s.Holds l := by
  have path : ∀ (l₁ l₂ : List N), l = l₁ ++ l₂ →
      Path s.links l₁.getLast? (l₂.map some) none := by
    intro l₁ l₂
    induction l₂ generalizing l₁ with
    | nil =>
      rintro rfl
      rw [append_nil] at *
      refine ⟨?_, last⟩
      cases final : l₁.getLast? with
      | none =>
        rw [List.getLast?_eq_none_iff.mp final] at first
        exact first
      | some x =>
        rw [List.getLast?_eq_getElem?] at final
        have after := next _ x final
        rwa [List.getElem?_eq_none (by omega)] at after
    | cons x l₂ ih =>
      intro split
      have here : l[l₁.length]? = some x := by simp [split]
      have rest := ih (l₁ ++ [x]) (by simp [split])
      rw [List.getLast?_concat] at rest
      refine ⟨?_, rest⟩
      rcases eq_nil_or_concat l₁ with rfl | ⟨l₀, y, rfl⟩
      · exact ⟨first.trans here, prev_first x here⟩
      rw [concat_eq_append, length_append, length_singleton] at here
      have before : l[l₀.length]? = some y := by simp [split]
      rw [concat_eq_append, List.getLast?_concat]
      exact ⟨(next _ y before).trans here, (prev _ x here).trans before⟩
  refine ⟨path [] l rfl, nodup_cons.mpr ⟨by simp, ?_⟩⟩
  exact nodup.map fun _ _ => some.inj

/-! ## Moves -/

section Move

variable [DecidableEq N]

/-- `node` gets another next node; nothing happens for nil. -/
def setNext (s : Ends N) (node value : Option N) : Ends N :=
  match node with
  | none => s
  | some x => { s with next := update s.next x value }

/-- `node` gets another previous node; nothing happens for nil. -/
def setPrev (s : Ends N) (node value : Option N) : Ends N :=
  match node with
  | none => s
  | some x => { s with prev := update s.prev x value }

/-- A node is moved to the front. -/
def moveToFront (s : Ends N) (x : N) : Ends N :=
  if s.first ≠ some x then
    let swap := s.first
    let s := { s with first := some x }
    let s := s.setNext (s.prev x) (s.next x)
    let s := if s.next x ≠ none then s.setPrev (s.next x) (s.prev x)
      else { s with last := s.prev x }
    let s := s.setNext (some x) swap
    let s := s.setPrev (some x) none
    s.setPrev swap (some x)
  else s

/-- A node is moved to the back. -/
def moveToBack (s : Ends N) (x : N) : Ends N :=
  if s.last ≠ some x then
    let swap := s.last
    let s := { s with last := some x }
    let s := s.setPrev (s.next x) (s.prev x)
    let s := if s.prev x ≠ none then s.setNext (s.prev x) (s.next x)
      else { s with first := s.next x }
    let s := s.setPrev (some x) swap
    let s := s.setNext (some x) none
    s.setNext swap (some x)
  else s

theorem flip_setNext (s : Ends N) (node value : Option N) :
    (s.setNext node value).flip = s.flip.setPrev node value := by
  cases node <;> rfl

theorem flip_setPrev (s : Ends N) (node value : Option N) :
    (s.setPrev node value).flip = s.flip.setNext node value := by
  cases node <;> rfl

/-- The pointers after a node in the middle or at the end was moved to the front. -/
theorem moveToFront_links {f p : N} (first : s.first = some f) (before : s.prev x = some p)
    (other : f ≠ x) (p_ne : p ≠ x) :
    (s.moveToFront x).links.next = update (update (update s.links.next none (some x))
          (some p) (s.next x)) (some x) (some f) ∧
      (s.moveToFront x).links.prev = update (update (update s.links.prev (s.next x) (some p))
          (some x) none) (some f) (some x) := by
  have moves : s.first ≠ some x := fun same => other (some.inj (first.symm.trans same))
  rw [moveToFront, if_pos moves]
  have split : s.next x = none ∨ ∃ q, s.next x = some q := by
    cases s.next x with
    | none => exact .inl rfl
    | some q => exact .inr ⟨q, rfl⟩
  rcases split with after | ⟨q, after⟩
  · simp only [first, before, after, setNext, setPrev, update_of_ne p_ne.symm, ne_eq,
      not_true_eq_false, if_false]
    constructor <;> funext y <;> cases y <;> simp [links, Function.update_apply]
  · simp only [first, before, after, setNext, setPrev, update_of_ne p_ne.symm, ne_eq,
      reduceCtorEq, not_false_eq_true, if_true]
    constructor <;> funext y <;> cases y <;> simp [links, Function.update_apply]

/-- The back is the front of the list read backwards. -/
theorem flip_moveToBack (s : Ends N) (x : N) : (s.moveToBack x).flip = s.flip.moveToFront x := by
  rw [moveToBack, moveToFront]
  by_cases moves : s.last ≠ some x
  · rw [if_pos moves, if_pos (show s.flip.first ≠ some x from moves)]
    dsimp only
    rw [flip_setNext, flip_setNext, flip_setPrev, apply_ite flip, flip_setNext]
    have unlinked : ({ s with last := some x }.setPrev (s.next x) (s.prev x)).flip =
        { s.flip with first := some x }.setNext (s.flip.prev x) (s.flip.next x) := flip_setPrev ..
    rw [← unlinked]
    rfl
  · rw [if_neg moves, if_neg (show ¬ s.flip.first ≠ some x from moves)]

theorem Holds.moveToFront (holds : s.Holds l) (mem : x ∈ l) :
    (s.moveToFront x).Holds (x :: l.erase x) := by
  obtain ⟨l₁, l₂, rfl⟩ := append_of_mem mem
  have nodup := holds.nodup
  have fresh₁ : x ∉ l₁ := fun member =>
    (nodup_append.mp nodup).2.2 x member x mem_cons_self rfl
  have fresh₂ : x ∉ l₂ := (nodup_cons.mp (nodup_append.mp nodup).2.1).1
  rw [erase_append_right _ fresh₁, erase_cons_head]
  cases l₁ with
  | nil =>
    have first : s.first = some x := holds.first_eq
    rw [Ends.moveToFront, if_neg (not_not.mpr first)]
    exact holds
  | cons f l =>
    -- take the node out, and put it in behind nil
    have first : s.first = some f := holds.first_eq
    obtain ⟨p, before⟩ : ∃ p, s.prev x = some p := by
      rw [holds.prev_eq]
      exact ⟨_, List.getLast?_cons⟩
    have p_mem : p ∈ f :: l := by
      rw [holds.prev_eq] at before
      exact mem_of_getLast? before
    have other : f ≠ x := fun same => fresh₁ (same ▸ mem_cons_self)
    have p_ne : p ≠ x := fun same => fresh₁ (same ▸ p_mem)
    let without : Links (Option N) := ⟨update s.links.next (some p) (s.next x),
      update s.links.prev (s.next x) (some p)⟩
    have removed : Removed s.links without (some x) := by
      constructor
      case joined =>
        show Linked _ (s.prev x) (s.next x)
        rw [before]
        exact ⟨update_self .., update_self ..⟩
      case next =>
        intro y differs
        exact update_of_ne (fun same => differs (same.trans before.symm)) ..
      case prev =>
        intro y differs
        exact update_of_ne differs ..
    have rest : Ring without none (((f :: l).map some) ++ l₂.map some) := by
      refine Ring.remove ?_ removed
      rw [← map_cons, ← map_append]
      exact holds
    obtain ⟨next, prev⟩ := moveToFront_links first before other p_ne
    have apart' : some f ≠ some x := fun same => other (some.inj same)
    have front : without.next none = some f := by
      show update s.links.next (some p) (s.next x) none = some f
      rw [update_of_ne (by nofun)]
      exact first
    have inserted : Inserted without (s.moveToFront x).links none (some x) := by
      constructor
      case before =>
        constructor
        · rw [next, update_of_ne (by nofun), update_of_ne (by nofun), update_self]
        · rw [prev, update_of_ne apart'.symm, update_self]
      case after =>
        rw [front]
        constructor
        · rw [next, update_self]
        · rw [prev, update_self]
      case next =>
        intro y head moved
        rw [next, update_of_ne moved]
        show update (update s.links.next none (some x)) _ _ y = update s.links.next _ _ y
        by_cases same : y = some p
        · rw [same, update_self, update_self]
        · rw [update_of_ne same, update_of_ne same, update_of_ne head]
      case prev =>
        intro y old moved
        rw [front] at old
        rw [prev, update_of_ne old, update_of_ne moved]
    have whole : Ring (s.moveToFront x).links none
        ([] ++ some x :: ((f :: l).map some ++ l₂.map some)) := by
      refine Ring.insert rest inserted ?_
      simp only [mem_cons, mem_append, List.mem_map, reduceCtorEq, false_or,
        some.injEq, exists_eq_right, not_or, nil_append]
      exact ⟨mem_cons.not.mp fresh₁ |> not_or.mp, fresh₂⟩
    rw [Holds, map_cons, cons_append, map_cons, map_append]
    exact whole

theorem Holds.moveToBack (holds : s.Holds l) (mem : x ∈ l) :
    (s.moveToBack x).Holds (l.erase x ++ [x]) := by
  have front := holds.flip.moveToFront (mem_reverse.mpr mem)
  rw [← flip_moveToBack] at front
  have back := front.flip
  rw [reverse_cons, (holds.flip.nodup).erase_eq_filter, ← filter_reverse,
    reverse_reverse, ← (holds.nodup).erase_eq_filter] at back
  exact back

/-! ### With faults -/

/-- A node is moved to the front, by a program that stops when it follows nil. -/
def toFront (s : Ends N) (x : N) : Option (Ends N) :=
  if s.first ≠ some x then do
    let swap := s.first
    let s := { s with first := some x }
    let before ← s.prev x
    let s := s.setNext (some before) (s.next x)
    let s := match s.next x with
      | some after => s.setPrev (some after) (s.prev x)
      | none => { s with last := s.prev x }
    let s := s.setNext (some x) swap
    let s := s.setPrev (some x) none
    let behind ← swap
    some (s.setPrev (some behind) (some x))
  else some s

/-- A node is moved to the back, by a program that stops when it follows nil. -/
def toBack (s : Ends N) (x : N) : Option (Ends N) :=
  if s.last ≠ some x then do
    let swap := s.last
    let s := { s with last := some x }
    let after ← s.next x
    let s := s.setPrev (some after) (s.prev x)
    let s := match s.prev x with
      | some before => s.setNext (some before) (s.next x)
      | none => { s with first := s.next x }
    let s := s.setPrev (some x) swap
    let s := s.setNext (some x) none
    let ahead ← swap
    some (s.setNext (some ahead) (some x))
  else some s

theorem Holds.toFront (holds : s.Holds l) (mem : x ∈ l) :
    s.toFront x = some (s.moveToFront x) := by
  rw [Ends.toFront, Ends.moveToFront]
  by_cases moves : s.first ≠ some x
  · obtain ⟨f, p, first, before⟩ := holds.prev_isSome mem moves
    rw [if_pos moves, if_pos moves]
    simp only [first, before, bind_eq_bind, bind_some, some.injEq]
    cases after : ({ s with first := some x }.setNext (some p) (s.next x)).next x <;> rfl
  · rw [if_neg moves, if_neg moves]

theorem Holds.toBack (holds : s.Holds l) (mem : x ∈ l) :
    s.toBack x = some (s.moveToBack x) := by
  rw [Ends.toBack, Ends.moveToBack]
  by_cases moves : s.last ≠ some x
  · obtain ⟨f, p, last, after⟩ := holds.next_isSome mem moves
    rw [if_pos moves, if_pos moves]
    simp only [last, after, bind_eq_bind, bind_some, some.injEq]
    cases before : ({ s with last := some x }.setPrev (some p) (s.prev x)).prev x <;> rfl
  · rw [if_neg moves, if_neg moves]

end Move

/-! ## Walks -/

/-- The nodes that are visited from a node on, at most `fuel` of them. -/
def trace (s : Ends N) : ℕ → Option N → List N
  | 0, _ => []
  | _ + 1, none => []
  | fuel + 1, some x => x :: s.trace fuel (s.next x)

theorem Holds.trace_eq {l₁ l₂ : List N} (holds : s.Holds (l₁ ++ l₂)) {fuel : ℕ}
    (enough : l₂.length ≤ fuel) : s.trace fuel l₂.head? = l₂ := by
  induction l₂ generalizing l₁ fuel with
  | nil => cases fuel <;> rfl
  | cons x l₂ ih =>
    obtain ⟨fuel, rfl⟩ := Nat.exists_eq_succ_of_ne_zero (show fuel ≠ 0 by
      rw [length_cons] at enough
      omega)
    rw [length_cons] at enough
    have rest : s.Holds ((l₁ ++ [x]) ++ l₂) := by rwa [append_assoc]
    rw [List.head?_cons, trace, holds.next_eq, ih rest (by omega)]

end Ends

end Darwin.Lib
