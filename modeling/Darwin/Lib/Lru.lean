import Mathlib.Data.Finset.Card

/-!
# Least recently used

A cache of `n` entries keeps its keys in the order of their last use and gives up the last one when
it is full.  What it holds is a function of the events so far; it is described here without the
order, by what happened since an entry was last used.

## Main results

* `mem_contents_iff` - an entry is held while fewer than `n` other keys are live
-/

namespace Darwin.Lib.Lru

open List

/-- What happens to the cache. -/
inductive Event (K D : Type*) where
  | inserted (key : K) (value : D)
  | found (key : K)
  | dropped (key : K)
  | cleared

section

variable {K D : Type*}

/-- The event is a use of the key. -/
def Event.Uses (k : K) : Event K D → Prop
  | inserted j _ => j = k
  | found j => j = k
  | dropped _ => False
  | cleared => False

/-- The event ends what was stored for the key. -/
def Event.Ends (k : K) : Event K D → Prop
  | inserted j _ => j = k
  | found _ => False
  | dropped j => j = k
  | cleared => True

variable [DecidableEq K]

/-- The entries after an event, the one used last in front. -/
def step (n : ℕ) (l : List (K × D)) : Event K D → List (K × D)
  | .inserted k d => ((k, d) :: l.filter (·.1 ≠ k)).take n
  | .found k => l.filter (·.1 = k) ++ l.filter (·.1 ≠ k)
  | .dropped k => l.filter (·.1 ≠ k)
  | .cleared => []

/-- The entries after all events of a history, which begins with an empty cache. -/
def contents (n : ℕ) (h : List (Event K D)) : List (K × D) := h.foldl (step n) []

/-- The live keys after an event: those used and not dropped since. -/
def liveStep (s : Finset K) : Event K D → Finset K
  | .inserted k _ => insert k s
  | .found k => insert k s
  | .dropped k => s.erase k
  | .cleared => ∅

/-- The keys that a stretch of a history has used and not dropped again. -/
def live (h : List (Event K D)) : Finset K := h.foldl liveStep ∅

theorem contents_concat (n : ℕ) (h : List (Event K D)) (e : Event K D) :
    contents n (h ++ [e]) = step n (contents n h) e := by
  rw [contents, foldl_append]
  rfl

theorem live_concat (h : List (Event K D)) (e : Event K D) :
    live (h ++ [e]) = liveStep (live h) e := by
  rw [live, foldl_append]
  rfl

/-- Only keys that the cache holds are found. -/
def Honest (n : ℕ) (h : List (Event K D)) : Prop :=
  ∀ h₁ k h₂, h = h₁ ++ .found k :: h₂ → k ∈ (contents n h₁).map Prod.fst

/-- The value was the last one stored for the key, which was not dropped since. -/
def Stored (h : List (Event K D)) (k : K) (d : D) : Prop :=
  ∃ h₁ h₂, h = h₁ ++ .inserted k d :: h₂ ∧ ∀ e ∈ h₂, ¬ e.Ends k

/-- The events of `recent` are those since the last use of the key. -/
def Since (h : List (Event K D)) (k : K) (recent : List (Event K D)) : Prop :=
  ∃ h₁ e, h = h₁ ++ e :: recent ∧ e.Uses k ∧ ∀ e ∈ recent, ¬ e.Uses k

/-- The key has a value, and at no time since its last use were `n` other keys live. -/
def Kept (n : ℕ) (h : List (Event K D)) (k : K) (d : D) : Prop :=
  Stored h k d ∧ ∃ recent, Since h k recent ∧ ∀ part, part <+: recent → (live part).card < n

end

section History

variable {K D : Type*} {h recent : List (Event K D)} {e : Event K D} {k : K} {d d' : D}

theorem stored_concat : Stored (h ++ [e]) k d ↔ e = .inserted k d ∨ ¬ e.Ends k ∧ Stored h k d := by
  constructor
  · rintro ⟨h₁, h₂, split, since⟩
    rcases eq_nil_or_concat h₂ with rfl | ⟨h₂, last, rfl⟩
    · have ends := append_inj' split rfl
      exact .inl (singleton_inj.mp ends.2)
    rw [concat_eq_append, ← cons_append, ← append_assoc] at split
    obtain ⟨before, same⟩ := append_inj' split rfl
    obtain rfl := singleton_inj.mp same
    rw [concat_eq_append] at since
    refine .inr ⟨since e (mem_append_right _ (mem_singleton_self e)), h₁, h₂, before, ?_⟩
    intro other mem
    exact since other (mem_append_left _ mem)
  · rintro (rfl | ⟨goes_on, h₁, h₂, rfl, since⟩)
    · exact ⟨h, [], rfl, by simp⟩
    refine ⟨h₁, h₂ ++ [e], by simp, ?_⟩
    intro other mem
    rcases mem_append.mp mem with mem | mem
    · exact since other mem
    · exact mem_singleton.mp mem ▸ goes_on

theorem since_concat : Since (h ++ [e]) k recent ↔
    e.Uses k ∧ recent = [] ∨ ¬ e.Uses k ∧ ∃ r, recent = r ++ [e] ∧ Since h k r := by
  constructor
  · rintro ⟨h₁, use, split, uses, since⟩
    rcases eq_nil_or_concat recent with rfl | ⟨r, last, rfl⟩
    · have ends := append_inj' split rfl
      obtain rfl := singleton_inj.mp ends.2
      exact .inl ⟨uses, rfl⟩
    rw [concat_eq_append, ← cons_append, ← append_assoc] at split
    obtain ⟨before, same⟩ := append_inj' split rfl
    obtain rfl := singleton_inj.mp same
    rw [concat_eq_append] at since ⊢
    refine .inr ⟨since e (mem_append_right _ (mem_singleton_self e)),
      r, rfl, h₁, use, before, uses, ?_⟩
    intro other mem
    exact since other (mem_append_left _ mem)
  · rintro (⟨uses, rfl⟩ | ⟨other, r, rfl, h₁, use, rfl, uses, since⟩)
    · exact ⟨h, e, rfl, uses, by simp⟩
    refine ⟨h₁, use, by simp, uses, ?_⟩
    intro event mem
    rcases mem_append.mp mem with mem | mem
    · exact since event mem
    · exact mem_singleton.mp mem ▸ other

/-- A key has one value. -/
theorem Stored.unique (stored : Stored h k d) (stored' : Stored h k d') : d = d' := by
  induction h using List.reverseRecOn with
  | nil =>
    obtain ⟨h₁, h₂, split, -⟩ := stored
    simp at split
  | append_singleton h e ih =>
    rcases stored_concat.mp stored with rfl | ⟨goes_on, before⟩ <;>
      rcases stored_concat.mp stored' with same | ⟨goes_on', before'⟩
    · injection same with _ same
    · exact absurd rfl goes_on'
    · subst same
      exact absurd rfl goes_on
    · exact ih before before'

/-- A key has one last use. -/
theorem Since.unique {recent' : List (Event K D)} (since : Since h k recent)
    (since' : Since h k recent') : recent = recent' := by
  induction h using List.reverseRecOn generalizing recent recent' with
  | nil =>
    obtain ⟨h₁, e, split, -⟩ := since
    simp at split
  | append_singleton h e ih =>
    rcases since_concat.mp since with ⟨uses, rfl⟩ | ⟨other, r, rfl, before⟩ <;>
      rcases since_concat.mp since' with ⟨uses', rfl⟩ | ⟨other', r', rfl, before'⟩
    · rfl
    · exact absurd uses other'
    · exact absurd uses' other
    · rw [ih before before']

end History

section Place

variable {K D : Type*} {n : ℕ} {l front back : List (K × D)} {e : Event K D} {k j : K} {d v : D}
  {s : Finset K}

/-- No key twice, and no more entries than there is room for. -/
structure Fits (n : ℕ) (l : List (K × D)) : Prop where
  nodup : (l.map Prod.fst).Nodup
  length : l.length ≤ n

theorem Fits.filter (fits : Fits n l) (p : K × D → Bool) : Fits n (l.filter p) :=
  ⟨fits.nodup.sublist (filter_sublist.map _), (length_filter_le ..).trans fits.length⟩

/-- What the first `n` entries hold of an entry. -/
theorem mem_take_iff (fresh : k ∉ front.map Prod.fst) :
    (k, d) ∈ (front ++ (k, d) :: back).take n ↔ front.length < n := by
  rw [take_append]
  constructor
  · intro mem
    by_contra full
    rw [Nat.sub_eq_zero_of_le (by omega), take_zero, append_nil] at mem
    exact fresh (mem_map_of_mem (mem_of_mem_take mem))
  · intro room
    obtain ⟨left, more⟩ := Nat.exists_eq_add_of_lt room
    rw [show n - front.length = left + 1 by omega, take_succ_cons]
    exact mem_append_cons_self

variable [DecidableEq K]

/-- The entry stands behind those of the keys in `s`. -/
def Place (l : List (K × D)) (k : K) (d : D) (s : Finset K) : Prop :=
  ∃ front back, l = front ++ (k, d) :: back ∧ (front.map Prod.fst).toFinset = s

/-- The entries of one key: there is at most one. -/
theorem Fits.filter_eq (fits : Fits n l) (mem : (k, d) ∈ l) :
    l.filter (·.1 = k) = [(k, d)] := by
  obtain ⟨front, back, rfl⟩ := append_of_mem mem
  have nodup := fits.nodup
  rw [map_append, map_cons, nodup_append] at nodup
  obtain ⟨-, rest, apart⟩ := nodup
  rw [filter_append, filter_cons_of_pos (by simp), filter_eq_nil_iff.mpr, filter_eq_nil_iff.mpr]
  · rfl
  · intro entry inside same
    exact (nodup_cons.mp rest).1 (mem_map.mpr ⟨entry, inside, by simpa using same⟩)
  · intro entry inside same
    exact apart entry.1 (mem_map_of_mem inside) k mem_cons_self (by simpa using same)

/-- A use that finds its key only changes the order. -/
theorem found_perm (n : ℕ) (l : List (K × D)) (k : K) : (step n l (.found k)).Perm l := by
  have perm := filter_append_perm (fun entry => decide (entry.1 = k)) l
  simpa only [step, ne_eq, decide_not] using perm

theorem Fits.step (fits : Fits n l) (e : Event K D) : Fits n (step n l e) := by
  cases e with
  | inserted j value =>
    constructor
    · refine List.Nodup.sublist ((take_sublist ..).map _) ?_
      rw [map_cons, nodup_cons]
      refine ⟨?_, (fits.filter _).nodup⟩
      simp
    · exact length_take_le ..
  | found j =>
    have perm := found_perm n l j
    exact ⟨(perm.map _).nodup_iff.mpr fits.nodup, perm.length_eq.trans_le fits.length⟩
  | dropped j => exact fits.filter _
  | cleared => exact ⟨nodup_nil, Nat.zero_le _⟩

/-- A key that moves to the front. -/
theorem keys_front (fits : Fits n (front ++ (k, d) :: back)) (other : j ≠ k) :
    (((j, v) :: front.filter (·.1 ≠ j)).map Prod.fst).Nodup ∧
      k ∉ ((j, v) :: front.filter (·.1 ≠ j)).map Prod.fst ∧
      (((j, v) :: front.filter (·.1 ≠ j)).map Prod.fst).toFinset =
        insert j (front.map Prod.fst).toFinset := by
  have nodup := fits.nodup
  rw [map_append, map_cons, nodup_append] at nodup
  obtain ⟨nodup, -, apart⟩ := nodup
  refine ⟨?_, ?_, ?_⟩
  · rw [map_cons, nodup_cons]
    refine ⟨by simp, nodup.sublist (filter_sublist.map _)⟩
  · rw [map_cons, mem_cons, not_or]
    refine ⟨other.symm, fun mem => ?_⟩
    have inside := (filter_sublist.map Prod.fst).subset mem
    exact apart k inside k mem_cons_self rfl
  · ext i
    by_cases same : i = j
    · simp [same]
    simp only [map_cons, toFinset_cons, Finset.mem_insert, same, false_or,
      mem_toFinset, mem_map, mem_filter]
    constructor
    · rintro ⟨entry, ⟨inside, -⟩, rfl⟩
      exact ⟨entry, inside, rfl⟩
    · rintro ⟨entry, inside, rfl⟩
      exact ⟨entry, ⟨inside, by simpa using same⟩, rfl⟩

/-- The keys in front of an entry are the live ones, before and after an event that is not about
the entry; only the entries at the end may get lost. -/
theorem step_split (fits : Fits n (front ++ (k, d) :: back)) (other : ¬ e.Uses k)
    (goes_on : ¬ e.Ends k)
    (honest : ∀ j, e = .found j → j ∈ (front ++ (k, d) :: back).map Prod.fst) :
    ∃ front' back', step n (front ++ (k, d) :: back) e = (front' ++ (k, d) :: back').take n ∧
      (front'.map Prod.fst).Nodup ∧ k ∉ front'.map Prod.fst ∧
      (front'.map Prod.fst).toFinset = liveStep (front.map Prod.fst).toFinset e := by
  have rest (j : K) (differs : j ≠ k) : (front ++ (k, d) :: back).filter (·.1 ≠ j) =
      front.filter (·.1 ≠ j) ++ (k, d) :: back.filter (·.1 ≠ j) := by
    rw [filter_append, filter_cons_of_pos (by simpa using differs.symm)]
  cases e with
  | inserted j value =>
    have differs : j ≠ k := other
    refine ⟨(j, value) :: front.filter (·.1 ≠ j), back.filter (·.1 ≠ j), ?_,
      keys_front fits differs⟩
    rw [step, rest j differs, cons_append]
  | found j =>
    have differs : j ≠ k := other
    obtain ⟨value, mem⟩ : ∃ value, (j, value) ∈ front ++ (k, d) :: back := by
      obtain ⟨⟨i, value⟩, mem, same⟩ := mem_map.mp (honest j rfl)
      exact ⟨value, same ▸ mem⟩
    refine ⟨(j, value) :: front.filter (·.1 ≠ j), back.filter (·.1 ≠ j), ?_,
      keys_front fits differs⟩
    have whole : step n (front ++ (k, d) :: back) (.found j) =
        (j, value) :: (front ++ (k, d) :: back).filter (·.1 ≠ j) := by
      rw [step, fits.filter_eq mem, singleton_append]
    rw [cons_append, ← rest j differs, ← whole]
    refine (take_of_length_le ?_).symm
    exact (found_perm n _ j).length_eq.trans_le fits.length
  | dropped j =>
    have differs : j ≠ k := goes_on
    have nodup := fits.nodup
    rw [map_append, map_cons, nodup_append] at nodup
    refine ⟨front.filter (·.1 ≠ j), back.filter (·.1 ≠ j), ?_,
      nodup.1.sublist (filter_sublist.map _), ?_, ?_⟩
    · rw [step, ← rest j differs]
      exact (take_of_length_le (fits.filter _).length).symm
    · intro mem
      have inside := (filter_sublist.map Prod.fst).subset mem
      exact nodup.2.2 k inside k mem_cons_self rfl
    ext i
    simp only [mem_toFinset, mem_map, mem_filter, liveStep, Finset.mem_erase, decide_eq_true_eq]
    constructor
    · rintro ⟨entry, ⟨inside, differs⟩, rfl⟩
      exact ⟨differs, entry, inside, rfl⟩
    · rintro ⟨differs, entry, inside, rfl⟩
      exact ⟨entry, ⟨inside, differs⟩, rfl⟩
  | cleared => exact absurd trivial goes_on

theorem Place.mem_step_iff (place : Place l k d s) (fits : Fits n l) (other : ¬ e.Uses k)
    (goes_on : ¬ e.Ends k) (honest : ∀ j, e = .found j → j ∈ l.map Prod.fst) :
    (k, d) ∈ step n l e ↔ (liveStep s e).card < n := by
  obtain ⟨front, back, rfl, rfl⟩ := place
  obtain ⟨front', back', split, nodup, fresh, keys⟩ := step_split fits other goes_on honest
  rw [split, mem_take_iff fresh, ← keys, toFinset_card_of_nodup nodup, length_map]

theorem Place.step (place : Place l k d s) (fits : Fits n l) (other : ¬ e.Uses k)
    (goes_on : ¬ e.Ends k) (honest : ∀ j, e = .found j → j ∈ l.map Prod.fst)
    (room : (liveStep s e).card < n) : Place (step n l e) k d (liveStep s e) := by
  obtain ⟨front, back, rfl, rfl⟩ := place
  obtain ⟨front', back', split, nodup, fresh, keys⟩ := step_split fits other goes_on honest
  rw [← keys, toFinset_card_of_nodup nodup, length_map] at room
  obtain ⟨left, more⟩ := Nat.exists_eq_add_of_lt room
  refine ⟨front', back'.take left, ?_, keys⟩
  rw [split, take_append, take_of_length_le (by omega),
    show n - front'.length = left + 1 by omega, take_succ_cons]

end Place

section Contents

variable {K D : Type*} [DecidableEq K] {n : ℕ} {h recent : List (Event K D)} {k : K} {d : D}
  {e : Event K D}

theorem honest_concat :
    Honest n (h ++ [e]) ↔ Honest n h ∧ ∀ j, e = .found j → j ∈ (contents n h).map Prod.fst := by
  constructor
  · intro honest
    constructor
    · rintro h₁ j h₂ rfl
      exact honest h₁ j (h₂ ++ [e]) (by simp)
    · rintro j rfl
      exact honest h j [] rfl
  · rintro ⟨honest, found⟩ h₁ j h₂ split
    rcases eq_nil_or_concat h₂ with rfl | ⟨h₂, last, rfl⟩
    · obtain ⟨rfl, same⟩ := append_inj' split rfl
      exact found j (singleton_inj.mp same)
    · rw [concat_eq_append, ← cons_append, ← append_assoc] at split
      exact honest h₁ j h₂ (append_inj' split rfl).1

theorem fits_contents (n : ℕ) (h : List (Event K D)) : Fits n (contents n h) := by
  induction h using List.reverseRecOn with
  | nil => exact ⟨nodup_nil, Nat.zero_le n⟩
  | append_singleton h e ih =>
    rw [contents_concat]
    exact ih.step e

/-- Using an entry puts it in front. -/
theorem place_used (room : 0 < n) (mem : (k, d) ∈ step n (contents n h) e)
    (uses : e.Uses k) : Place (step n (contents n h) e) k d ∅ := by
  cases e with
  | inserted j value =>
    obtain rfl : j = k := uses
    obtain ⟨left, rfl⟩ := Nat.exists_eq_succ_of_ne_zero room.ne'
    have whole : step (left + 1) (contents (left + 1) h) (.inserted j value) =
        (j, value) :: ((contents (left + 1) h).filter (·.1 ≠ j)).take left := rfl
    rw [Nat.succ_eq_add_one, whole] at mem ⊢
    rcases mem_cons.mp mem with same | mem
    · injection same with _ same
      subst same
      exact ⟨[], _, rfl, rfl⟩
    · have inside := mem_of_mem_take mem
      simp at inside
  | found j =>
    obtain rfl : j = k := uses
    have inside := (found_perm n _ _).mem_iff.mp mem
    rw [step, (fits_contents n h).filter_eq inside]
    exact ⟨[], _, rfl, rfl⟩
  | dropped j => exact absurd uses not_false
  | cleared => exact absurd uses not_false

/-- An entry that an event did not use was there before. -/
theorem mem_of_step {l : List (K × D)} (mem : (k, d) ∈ step n l e)
    (other : ¬ e.Uses k) : (k, d) ∈ l ∧ ¬ e.Ends k := by
  cases e with
  | inserted j value =>
    refine ⟨?_, other⟩
    rcases mem_cons.mp (mem_of_mem_take mem) with same | inside
    · injection same with same
      exact absurd same.symm other
    · exact mem_of_mem_filter inside
  | found j => exact ⟨(found_perm n l j).mem_iff.mp mem, not_false⟩
  | dropped j =>
    obtain ⟨inside, differs⟩ := mem_filter.mp mem
    refine ⟨inside, fun same => ?_⟩
    obtain rfl : j = k := same
    simp at differs
  | cleared => cases mem

theorem stored_of_mem (mem : (k, d) ∈ contents n h) : Stored h k d := by
  induction h using List.reverseRecOn with
  | nil => cases mem
  | append_singleton h e ih =>
    rw [contents_concat] at mem
    rw [stored_concat]
    cases e with
    | inserted j value =>
      rcases mem_cons.mp (mem_of_mem_take mem) with same | inside
      · injection same with key same
        exact .inl (by rw [key, same])
      obtain ⟨inside, differs⟩ := mem_filter.mp inside
      refine .inr ⟨fun same => ?_, ih inside⟩
      obtain rfl : j = k := same
      simp at differs
    | found j => exact .inr ⟨not_false, ih ((found_perm n _ j).mem_iff.mp mem)⟩
    | dropped j =>
      obtain ⟨inside, goes_on⟩ := mem_of_step mem not_false
      exact .inr ⟨goes_on, ih inside⟩
    | cleared => cases mem

/-- Behind which keys an entry stands: those that are live since its last use. -/
theorem place_contents (room : 0 < n) (honest : Honest n h) (mem : (k, d) ∈ contents n h) :
    ∃ recent, Since h k recent ∧ Place (contents n h) k d (live recent) ∧
      ∀ part, part <+: recent → (live part).card < n := by
  induction h using List.reverseRecOn with
  | nil => cases mem
  | append_singleton h e ih =>
    obtain ⟨before, found⟩ := honest_concat.mp honest
    rw [contents_concat] at mem ⊢
    by_cases uses : e.Uses k
    · refine ⟨[], since_concat.mpr (.inl ⟨uses, rfl⟩), place_used room mem uses, ?_⟩
      intro part nothing
      rw [prefix_nil.mp nothing]
      exact room
    · obtain ⟨inside, goes_on⟩ := mem_of_step mem uses
      obtain ⟨recent, since, place, few⟩ := ih before inside
      have fits := fits_contents n h
      have still := (place.mem_step_iff fits uses goes_on found).mp mem
      refine ⟨recent ++ [e], since_concat.mpr (.inr ⟨uses, recent, rfl, since⟩), ?_, ?_⟩
      · rw [live_concat]
        exact place.step fits uses goes_on found still
      intro part begins
      rcases prefix_concat_iff.mp begins with rfl | begins
      · rw [live_concat]
        exact still
      · exact few part begins

/-- What the cache holds: an entry stays until `n` other keys are live at once, or an event ends
it. -/
theorem mem_contents_iff (room : 0 < n) (honest : Honest n h) :
    (k, d) ∈ contents n h ↔ Kept n h k d := by
  constructor
  · intro mem
    obtain ⟨recent, since, -, few⟩ := place_contents room honest mem
    exact ⟨stored_of_mem mem, recent, since, few⟩
  rintro ⟨stored, recent, since, few⟩
  induction h using List.reverseRecOn generalizing recent with
  | nil =>
    obtain ⟨h₁, h₂, split, -⟩ := stored
    simp at split
  | append_singleton h e ih =>
    obtain ⟨before, found⟩ := honest_concat.mp honest
    rw [contents_concat]
    rcases since_concat.mp since with ⟨uses, rfl⟩ | ⟨other, r, rfl, earlier⟩
    · rcases stored_concat.mp stored with rfl | ⟨goes_on, earlier⟩
      · -- the entry was stored just now
        obtain ⟨left, rfl⟩ := Nat.exists_eq_succ_of_ne_zero room.ne'
        exact mem_cons_self
      cases e with
      | inserted j value => exact absurd uses goes_on
      | found j =>
        -- it was found just now, with the value it had
        obtain rfl : j = k := uses
        obtain ⟨⟨i, value⟩, inside, same⟩ := mem_map.mp (found j rfl)
        obtain rfl : i = j := same
        rw [earlier.unique (stored_of_mem inside)]
        exact (found_perm n _ _).mem_iff.mpr inside
      | dropped j => exact absurd uses not_false
      | cleared => exact absurd uses not_false
    · rcases stored_concat.mp stored with rfl | ⟨goes_on, stored⟩
      · exact absurd rfl other
      have inside := ih before stored r earlier fun part begins =>
        few part (begins.trans (prefix_append r [e]))
      obtain ⟨r', earlier', place, -⟩ := place_contents room before inside
      obtain rfl := earlier.unique earlier'
      rw [place.mem_step_iff (fits_contents n h) other goes_on found, ← live_concat]
      exact few _ prefix_rfl

end Contents

end Darwin.Lib.Lru
