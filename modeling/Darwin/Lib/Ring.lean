import Mathlib.Data.List.Nodup

/-!
# Rings of doubly linked nodes

A queue is a ring: its head and its elements, each linked to the next one and back.  Two edits keep
a ring: putting a node in after another, and taking a node out.  Several queues that share no
element are kept together, each under its own head, so that an edit of one leaves the others alone.

## Main results

* `Queued.insert`: putting in a node that is on no queue.
* `Queued.remove`: taking a node out of its queue.
-/

namespace Darwin.Lib

open List Sum
open Function (update update_of_ne update_self)

/-- The two pointers of each node. -/
structure Links (N : Type*) where
  next : N → N
  prev : N → N

section Path

variable {N : Type*} {s s' : Links N} {a b p x y : N} {l l₁ l₂ : List N}

/-- Two nodes that point to each other. -/
structure Linked (s : Links N) (a b : N) : Prop where
  next : s.next a = b
  prev : s.prev b = a

/-- The links lead from `a` through the nodes of `l` to `b`, and back. -/
def Path (s : Links N) : N → List N → N → Prop
  | a, [], b => Linked s a b
  | a, x :: l, b => Linked s a x ∧ Path s x l b

theorem Path.append : Path s a (l₁ ++ x :: l₂) b ↔ Path s a l₁ x ∧ Path s x l₂ b := by
  induction l₁ generalizing a with
  | nil => exact Iff.rfl
  | cons y l ih =>
    simp only [cons_append, Path]
    rw [ih, and_assoc]

/-- A path depends on the forward pointers of all its nodes but the last, and on the backward
pointers of all but the first. -/
theorem Path.congr (path : Path s a l b) (next : ∀ x ∈ a :: l, s'.next x = s.next x)
    (prev : ∀ x ∈ b :: l, s'.prev x = s.prev x) : Path s' a l b := by
  induction l generalizing a with
  | nil =>
    refine ⟨?_, ?_⟩
    · rw [next a mem_cons_self, path.next]
    · rw [prev b mem_cons_self, path.prev]
  | cons x l ih =>
    obtain ⟨link, rest⟩ := path
    refine ⟨⟨?_, ?_⟩, ih rest ?_ ?_⟩
    · rw [next a mem_cons_self, link.next]
    · rw [prev x (mem_cons_of_mem _ mem_cons_self), link.prev]
    · intro y mem
      exact next y (mem_cons_of_mem _ mem)
    intro y mem
    apply prev
    rcases mem_cons.mp mem with rfl | mem
    · exact mem_cons_self
    · exact mem_cons_of_mem _ (mem_cons_of_mem _ mem)

/-- The first forward pointer and the last backward pointer. -/
theorem Path.next_eq (path : Path s a l b) : s.next a = l.headD b := by
  cases l with
  | nil => exact path.next
  | cons x l => exact path.1.next

theorem Path.prev_eq (path : Path s a l b) : s.prev b = l.getLastD a := by
  induction l generalizing a with
  | nil => exact path.prev
  | cons x l ih =>
    rw [ih path.2]
    cases l <;> rfl

/-- Two paths from one node to the same end, not met before, go through the same nodes. -/
theorem Path.unique (path : Path s a l₁ b) (path' : Path s a l₂ b) (before : b ∉ l₁)
    (before' : b ∉ l₂) : l₁ = l₂ := by
  induction l₁ generalizing a l₂ with
  | nil =>
    cases l₂ with
    | nil => rfl
    | cons y l =>
      have same : b = y := path.next.symm.trans path'.1.next
      exact absurd (same ▸ mem_cons_self) before'
  | cons x l₁ ih =>
    cases l₂ with
    | nil =>
      have same : b = x := path'.next.symm.trans path.1.next
      exact absurd (same ▸ mem_cons_self) before
    | cons y l =>
      obtain rfl : x = y := path.1.next.symm.trans path'.1.next
      have rest := ih path.2 path'.2 (fun mem => before (mem_cons_of_mem _ mem))
        (fun mem => before' (mem_cons_of_mem _ mem))
      rw [rest]

end Path

section Edit

variable {N : Type*} {s s' : Links N} {a b p x y : N} {l l₁ l₂ : List N}

/-- The links of `s'` are those of `s` with `x` put in after `p`. -/
structure Inserted (s s' : Links N) (p x : N) : Prop where
  before : Linked s' p x
  after : Linked s' x (s.next p)
  next : ∀ y, y ≠ p → y ≠ x → s'.next y = s.next y
  prev : ∀ y, y ≠ s.next p → y ≠ x → s'.prev y = s.prev y

/-- The links of `s'` are those of `s` with `x` taken out. -/
structure Removed (s s' : Links N) (x : N) : Prop where
  joined : Linked s' (s.prev x) (s.next x)
  next : ∀ y, y ≠ s.prev x → s'.next y = s.next y
  prev : ∀ y, y ≠ s.next x → s'.prev y = s.prev y

theorem Path.insert (path : Path s p l b) (edit : Inserted s s' p x) (once : (p :: l).Nodup)
    (last : b ∉ l) (fresh : x ∉ p :: l) (other : b ≠ x) : Path s' p (x :: l) b := by
  refine ⟨edit.before, ?_⟩
  cases l with
  | nil =>
    have end_eq : s.next p = b := path.next
    exact end_eq ▸ edit.after
  | cons y l =>
    obtain ⟨link, rest⟩ := path
    have after : Linked s' x y := link.next ▸ edit.after
    refine ⟨after, rest.congr ?_ ?_⟩
    · intro z mem
      apply edit.next
      · rintro rfl
        exact (nodup_cons.mp once).1 mem
      · rintro rfl
        exact fresh (mem_cons_of_mem _ mem)
    · intro z mem
      rw [nodup_cons] at once
      rcases mem_cons.mp mem with rfl | mem
      · apply edit.prev
        · rw [link.next]
          rintro rfl
          exact last mem_cons_self
        · exact other
      · apply edit.prev
        · rw [link.next]
          rintro rfl
          exact (nodup_cons.mp once.2).1 mem
        · rintro rfl
          exact fresh (mem_cons_of_mem _ (mem_cons_of_mem _ mem))

theorem Path.remove (path : Path s p (x :: l) b) (edit : Removed s s' x) (once : (p :: l).Nodup)
    (last : b ∉ l) : Path s' p l b := by
  obtain ⟨link, path⟩ := path
  have joined : Linked s' p (s.next x) := link.prev ▸ edit.joined
  cases l with
  | nil =>
    have end_eq : s.next x = b := path.next
    exact end_eq ▸ joined
  | cons y l =>
    obtain ⟨link', rest⟩ := path
    rw [link'.next] at joined
    refine ⟨joined, rest.congr ?_ ?_⟩
    · intro z mem
      apply edit.next
      rw [link.prev]
      rintro rfl
      exact (nodup_cons.mp once).1 mem
    · intro z mem
      apply edit.prev
      rw [link'.next]
      rintro rfl
      rcases mem_cons.mp mem with rfl | mem
      · exact last mem_cons_self
      · exact (nodup_cons.mp (nodup_cons.mp once).2).1 mem

end Edit

section Ring

variable {N : Type*} {s s' : Links N} {q p x y : N} {l l₁ l₂ : List N}

/-- The queue with head `q` holds the nodes of `l`. -/
structure Ring (s : Links N) (q : N) (l : List N) : Prop where
  path : Path s q l q
  nodup : (q :: l).Nodup

theorem Ring.head_not_mem (ring : Ring s q l) : q ∉ l := (nodup_cons.mp ring.nodup).1

/-- A queue holds one list. -/
theorem Ring.unique (ring : Ring s q l₁) (ring' : Ring s q l₂) : l₁ = l₂ :=
  ring.path.unique ring'.path ring.head_not_mem ring'.head_not_mem

theorem Ring.congr (ring : Ring s q l) (next : ∀ x ∈ q :: l, s'.next x = s.next x)
    (prev : ∀ x ∈ q :: l, s'.prev x = s.prev x) : Ring s' q l :=
  ⟨ring.path.congr next prev, ring.nodup⟩

theorem Ring.next_head (ring : Ring s q l) : s.next q = l.headD q := ring.path.next_eq

theorem Ring.prev_head (ring : Ring s q l) : s.prev q = l.getLastD q := ring.path.prev_eq

theorem Ring.empty_iff (ring : Ring s q l) : s.next q = q ↔ l = [] := by
  rw [ring.next_head]
  constructor
  · intro same
    cases l with
    | nil => rfl
    | cons x l => exact absurd (same ▸ mem_cons_self) ring.head_not_mem
  · rintro rfl
    rfl

/-- Where the ring goes after the elements of `l₁`. -/
theorem Ring.next_last (ring : Ring s q (l₁ ++ l₂)) :
    s.next (l₁.getLastD q) = l₂.headD q := by
  rcases eq_nil_or_concat l₁ with rfl | ⟨l, p, rfl⟩
  · exact ring.next_head
  have path := ring.path
  simp only [append_assoc, singleton_append, concat_eq_append, getLastD_concat] at path ⊢
  exact (Path.append.mp path).2.next_eq

/-- Where the ring comes from before the elements of `l₂`. -/
theorem Ring.prev_elem (ring : Ring s q (l₁ ++ x :: l₂)) : s.prev x = l₁.getLastD q :=
  (Path.append.mp ring.path).1.prev_eq

theorem Ring.next_elem (ring : Ring s q (l₁ ++ x :: l₂)) : s.next x = l₂.headD q :=
  (Path.append.mp ring.path).2.next_eq

theorem Ring.insert (ring : Ring s q (l₁ ++ l₂)) (edit : Inserted s s' (l₁.getLastD q) x)
    (fresh : x ∉ q :: (l₁ ++ l₂)) : Ring s' q (l₁ ++ x :: l₂) := by
  have once : (q :: (l₁ ++ x :: l₂)).Nodup := by
    have perm : (q :: (l₁ ++ x :: l₂)).Perm (x :: q :: (l₁ ++ l₂)) :=
      (List.Perm.cons q perm_middle).trans (List.Perm.swap x q _)
    exact perm.nodup_iff.mpr (nodup_cons.mpr ⟨fresh, ring.nodup⟩)
  refine ⟨?_, once⟩
  have other : q ≠ x := by
    rintro rfl
    exact fresh mem_cons_self
  rcases eq_nil_or_concat l₁ with rfl | ⟨l, p, rfl⟩
  · exact ring.path.insert edit ring.nodup ring.head_not_mem fresh other
  -- The front of the ring up to the predecessor stays, the rest takes the new node.
  have path := ring.path
  have nodup := ring.nodup
  simp only [append_assoc, singleton_append, concat_eq_append,
    getLastD_concat] at path edit nodup fresh ⊢
  obtain ⟨front, back⟩ := Path.append.mp path
  simp only [nodup_cons, mem_append, mem_cons, not_or, nodup_append] at nodup fresh
  refine Path.append.mpr ⟨front.congr ?_ ?_, back.insert edit ?_ ?_ ?_ other⟩
  · intro y mem
    apply edit.next
    · rintro rfl
      rcases mem_cons.mp mem with rfl | mem
      · exact nodup.1.2.1 rfl
      · exact nodup.2.2.2 y mem y (.inl rfl) rfl
    · rintro rfl
      rcases mem_cons.mp mem with rfl | mem
      · exact fresh.1 rfl
      · exact fresh.2.1 mem
  · intro y mem
    have reached := back.next_eq
    apply edit.prev
    · rw [reached]
      rintro rfl
      cases l₂ with
      | nil =>
        rcases mem_cons.mp mem with same | mem
        · exact nodup.1.2.1 same
        · exact nodup.1.1 mem
      | cons z l₂ =>
        rcases mem_cons.mp mem with same | mem
        · exact nodup.2.2.1.1 (same ▸ mem_cons_self)
        · exact nodup.2.2.2 _ mem z (.inr mem_cons_self) rfl
    · rintro rfl
      rcases mem_cons.mp mem with same | mem
      · exact fresh.2.2.1 same
      · exact fresh.2.1 mem
  · exact nodup_cons.mpr nodup.2.2.1
  · exact nodup.1.2.2
  intro mem
  rcases mem_cons.mp mem with same | mem
  · exact fresh.2.2.1 same
  · exact fresh.2.2.2 mem

theorem Ring.remove (ring : Ring s q (l₁ ++ x :: l₂)) (edit : Removed s s' x) :
    Ring s' q (l₁ ++ l₂) := by
  have once : (q :: (l₁ ++ l₂)).Nodup :=
    ring.nodup.sublist (List.Sublist.cons_cons q
      (List.Sublist.append_left (sublist_cons_self x l₂) l₁))
  refine ⟨?_, once⟩
  rcases eq_nil_or_concat l₁ with rfl | ⟨l, p, rfl⟩
  · exact ring.path.remove edit once (nodup_cons.mp once).1
  have path := ring.path
  have nodup := ring.nodup
  have before := ring.prev_elem
  have after := ring.next_elem
  simp only [append_assoc, singleton_append, concat_eq_append,
    getLastD_concat] at path nodup before ⊢
  obtain ⟨front, back⟩ := Path.append.mp path
  simp only [nodup_cons, mem_append, mem_cons, not_or, nodup_append] at nodup
  refine Path.append.mpr ⟨front.congr ?_ ?_, back.remove edit ?_ ?_⟩
  · intro y mem
    apply edit.next
    rw [before]
    rintro rfl
    rcases mem_cons.mp mem with same | mem
    · exact nodup.1.2.1 same.symm
    · exact nodup.2.2.2 y mem y (.inl rfl) rfl
  · intro y mem
    apply edit.prev
    rw [after]
    rintro rfl
    cases l₂ with
    | nil =>
      rcases mem_cons.mp mem with same | mem
      · exact nodup.1.2.1 same
      · exact nodup.1.1 mem
    | cons z l₂ =>
      rcases mem_cons.mp mem with same | mem
      · exact nodup.2.2.1.1.2 (same ▸ mem_cons_self)
      · exact nodup.2.2.2 _ mem z (.inr (.inr mem_cons_self)) rfl
  · refine nodup_cons.mpr ⟨nodup.2.2.1.1.2, nodup.2.2.1.2.2⟩
  · exact nodup.1.2.2.2

end Ring

section Queued

variable {H E : Type*} {s s' : Links (H ⊕ E)} {lists : H → List E} {h h' : H} {x : E}
  {y : H ⊕ E} {l l₁ l₂ : List E}

/-- The last node up to the elements of `l`, on the queue of head `h`. -/
def lastNode (h : H) (l : List E) : H ⊕ E := (l.map inr).getLastD (inl h)

/-- The first node from the elements of `l` on, on the queue of head `h`. -/
def firstNode (h : H) (l : List E) : H ⊕ E := (l.map inr).headD (inl h)

@[simp] theorem firstNode_nil : firstNode h ([] : List E) = inl h := rfl

@[simp] theorem firstNode_cons : firstNode h (x :: l) = inr x := rfl

@[simp] theorem lastNode_nil : lastNode h ([] : List E) = inl h := rfl

@[simp] theorem lastNode_concat : lastNode h (l ++ [x]) = inr x := by
  rw [lastNode, map_append, map_singleton, getLastD_concat]

theorem lastNode_mem : lastNode h l ∈ inl h :: l.map inr := by
  rcases eq_nil_or_concat l with rfl | ⟨l, x, rfl⟩
  · exact mem_cons_self
  · rw [concat_eq_append, lastNode_concat, map_append]
    exact mem_cons_of_mem _ (mem_append_cons_self)

theorem firstNode_mem : firstNode h l ∈ inl h :: l.map inr := by
  cases l with
  | nil => exact mem_cons_self
  | cons x l => exact mem_cons_of_mem _ mem_cons_self

/-- Every head has its queue, and no element is on two of them. -/
structure Queued (s : Links (H ⊕ E)) (lists : H → List E) : Prop where
  ring : ∀ h, Ring s (inl h) ((lists h).map inr)
  apart : ∀ {x h h'}, x ∈ lists h → x ∈ lists h' → h = h'

variable (queued : Queued s lists)

include queued

theorem Queued.nodup (h : H) : (lists h).Nodup :=
  (nodup_cons.mp (queued.ring h).nodup).2.of_map

theorem Queued.next_head (h : H) :
    s.next (inl h) = firstNode h (lists h) := (queued.ring h).next_head

theorem Queued.prev_head (h : H) :
    s.prev (inl h) = lastNode h (lists h) := (queued.ring h).prev_head

theorem Queued.next_last (split : lists h = l₁ ++ l₂) :
    s.next (lastNode h l₁) = firstNode h l₂ := by
  have ring := queued.ring h
  rw [split, map_append] at ring
  exact ring.next_last

theorem Queued.next_elem (split : lists h = l₁ ++ x :: l₂) : s.next (inr x) = firstNode h l₂ := by
  have ring := queued.ring h
  rw [split, map_append, map_cons] at ring
  exact ring.next_elem

theorem Queued.prev_elem (split : lists h = l₁ ++ x :: l₂) : s.prev (inr x) = lastNode h l₁ := by
  have ring := queued.ring h
  rw [split, map_append, map_cons] at ring
  exact ring.prev_elem

theorem Queued.empty_iff (h : H) : s.next (inl h) = inl h ↔ lists h = [] := by
  rw [(queued.ring h).empty_iff, map_eq_nil_iff]

theorem Queued.next_ne (split : lists h = l₁ ++ x :: l₂) : s.next (inr x) ≠ inr x := by
  rw [queued.next_elem split]
  cases l₂ with
  | nil => exact inl_ne_inr
  | cons y l₂ =>
    rw [firstNode_cons]
    intro same
    have once := queued.nodup h
    rw [split] at once
    have distinct := (nodup_cons.mp (nodup_append.mp once).2.1).1
    exact distinct (inr.inj same ▸ mem_cons_self)

omit queued

theorem lastNode_ne (fresh : x ∉ l) : lastNode h l ≠ (inr x : H ⊕ E) := by
  intro same
  have mem := lastNode_mem (h := h) (l := l)
  rw [same] at mem
  simp only [mem_cons, reduceCtorEq, mem_map, inr.injEq, exists_eq_right, false_or] at mem
  exact fresh mem

theorem firstNode_ne (fresh : x ∉ l) : firstNode h l ≠ (inr x : H ⊕ E) := by
  intro same
  have mem := firstNode_mem (h := h) (l := l)
  rw [same] at mem
  simp only [mem_cons, reduceCtorEq, mem_map, inr.injEq, exists_eq_right, false_or] at mem
  exact fresh mem

/-- The links determine the elements of the queues. -/
theorem Queued.unique {lists' : H → List E} (queued : Queued s lists) (queued' : Queued s lists') :
    lists = lists' := by
  funext h
  have same := (queued.ring h).unique (queued'.ring h)
  exact map_injective_iff.mpr (fun _ _ => inr.inj) same

theorem Queued.mem_of_next_head (queued : Queued s lists)
    (first : s.next (inl h) = inr x) : x ∈ lists h := by
  rw [queued.next_head] at first
  cases elems : lists h with
  | nil =>
    rw [elems] at first
    cases first
  | cons y l =>
    rw [elems, firstNode_cons] at first
    cases first
    exact mem_cons_self

/-- The nodes of two queues are apart. -/
theorem Queued.nodes_apart (queued : Queued s lists) (other : h' ≠ h)
    (mem : y ∈ inl h :: (lists h).map inr) :
    y ∉ inl h' :: (lists h').map inr := by
  intro inside'
  simp only [mem_cons, mem_map] at mem inside'
  rcases mem with rfl | ⟨x, mem, rfl⟩
  · rcases inside' with same | ⟨x', -, same⟩
    · exact other (inl.inj same).symm
    · cases same
  rcases inside' with same | ⟨x', inside', same⟩
  · cases same
  · cases same
    exact other (queued.apart inside' mem)

variable [DecidableEq H]

/-- An element that was on no queue is put in after the elements of `l₁`. -/
theorem Queued.insert (queued : Queued s lists) (split : lists h = l₁ ++ l₂)
    (fresh : ∀ h, x ∉ lists h) (edit : Inserted s s' (lastNode h l₁) (inr x)) :
    Queued s' (update lists h (l₁ ++ x :: l₂)) := by
  have fresh_node : ∀ h, inr x ∉ inl h :: (lists h).map inr := by
    intro h mem
    simp only [mem_cons, mem_map, reduceCtorEq, false_or, inr.injEq, exists_eq_right] at mem
    exact fresh h mem
  constructor
  case ring =>
    intro k
    by_cases same : k = h
    · subst k
      rw [update_self]
      have ring := queued.ring h
      have new := fresh_node h
      rw [split, map_append] at ring new
      have changed := ring.insert edit new
      rwa [map_append, map_cons]
    · rw [update_of_ne same]
      -- The edit touches only nodes of the other queue and the new element.
      have before : lastNode h l₁ ∈ inl h :: (lists h).map inr := by
        have mem := lastNode_mem (h := h) (l := l₁)
        rw [split, map_append]
        rcases mem_cons.mp mem with head | mem
        · exact head ▸ mem_cons_self
        · exact mem_cons_of_mem _ (mem_append_left _ mem)
      have after : s.next (lastNode h l₁) ∈ inl h :: (lists h).map inr := by
        have mem := firstNode_mem (h := h) (l := l₂)
        rw [queued.next_last split, split, map_append]
        rcases mem_cons.mp mem with head | mem
        · exact head ▸ mem_cons_self
        · exact mem_cons_of_mem _ (mem_append_right _ mem)
      refine (queued.ring k).congr ?_ ?_
      · intro y mem
        apply edit.next
        · rintro rfl
          exact queued.nodes_apart same before mem
        · rintro rfl
          exact fresh_node k mem
      · intro y mem
        apply edit.prev
        · rintro rfl
          exact queued.nodes_apart same after mem
        · rintro rfl
          exact fresh_node k mem
  case apart =>
    intro y k k' mem inside'
    have origin : ∀ k, y ∈ update lists h (l₁ ++ x :: l₂) k →
        y ∈ lists k ∨ (y = x ∧ k = h) := by
      intro k mem
      by_cases same : k = h
      · subst k
        rw [update_self] at mem
        rw [split]
        simp only [mem_append, mem_cons] at mem ⊢
        rcases mem with mem | rfl | mem
        · exact .inl (.inl mem)
        · exact .inr ⟨rfl, trivial⟩
        · exact .inl (.inr mem)
      · rw [update_of_ne same] at mem
        exact .inl mem
    rcases origin k mem with old | ⟨rfl, rfl⟩
    · rcases origin k' inside' with old' | ⟨rfl, rfl⟩
      · exact queued.apart old old'
      · exact absurd old (fresh k)
    · rcases origin k' inside' with old' | ⟨-, rfl⟩
      · exact absurd old' (fresh k')
      · rfl

theorem update_split_sublist (split : lists h = l₁ ++ x :: l₂) (k : H) :
    (update lists h (l₁ ++ l₂) k).Sublist (lists k) := by
  by_cases same : k = h
  · subst same
    rw [update_self, split]
    exact List.Sublist.append_left (sublist_cons_self x l₂) l₁
  · rw [update_of_ne same]

variable (queued : Queued s lists) (split : lists h = l₁ ++ x :: l₂)

include queued split

/-- An element that is taken out of its queue is on none. -/
theorem Queued.off_update (k : H) : x ∉ update lists h (l₁ ++ l₂) k := by
  intro mem
  have before := (update_split_sublist split k).subset mem
  have member : x ∈ lists h := split ▸ mem_append_cons_self
  obtain rfl := queued.apart before member
  have once := queued.nodup k
  rw [split] at once
  rw [update_self] at mem
  exact (nodup_cons.mp (perm_middle.nodup_iff.mp once)).1 mem

/-- An element is taken out of its queue. -/
theorem Queued.remove (edit : Removed s s' (inr x)) : Queued s' (update lists h (l₁ ++ l₂)) := by
  constructor
  case ring =>
    intro k
    by_cases same : k = h
    · subst k
      rw [update_self]
      have ring := queued.ring h
      rw [split, map_append, map_cons] at ring
      have changed := ring.remove edit
      rwa [map_append]
    · rw [update_of_ne same]
      have before : s.prev (inr x) ∈ inl h :: (lists h).map inr := by
        have mem := lastNode_mem (h := h) (l := l₁)
        rw [queued.prev_elem split, split, map_append]
        rcases mem_cons.mp mem with head | mem
        · exact head ▸ mem_cons_self
        · exact mem_cons_of_mem _ (mem_append_left _ mem)
      have after : s.next (inr x) ∈ inl h :: (lists h).map inr := by
        have mem := firstNode_mem (h := h) (l := l₂)
        rw [queued.next_elem split, split, map_append, map_cons]
        rcases mem_cons.mp mem with head | mem
        · exact head ▸ mem_cons_self
        · exact mem_cons_of_mem _ (mem_append_right _ (mem_cons_of_mem _ mem))
      refine (queued.ring k).congr ?_ ?_
      · intro y mem
        apply edit.next
        rintro rfl
        exact queued.nodes_apart same before mem
      · intro y mem
        apply edit.prev
        rintro rfl
        exact queued.nodes_apart same after mem
  case apart =>
    intro y k k' mem inside'
    have less := update_split_sublist split
    exact queued.apart ((less k).subset mem) ((less k').subset inside')

end Queued

end Darwin.Lib
