import Darwin.Hfs.Catalog.Iterators

/-!
# The discipline of the catalog iterators

Whoever gets an iterator owns it until it is released, and the one buffer for long names belongs to
one iterator at a time.  A search gives back an iterator without its lock when the best one stands
two entries away or more, and the buffer is taken from the first iterator that ever had it, in use
or not; the list itself survives all calls.

## Main results

* `catalogIterators_disciplined` - in every run that avoids these two cases
* `Run.wellLinked` - the list, in every run
-/

namespace Darwin.Hfs.CatalogIterators

open List Option Cache
open Function (update_of_ne update_self)
open Darwin.Lib

/-! ## Runs -/

/-- The iterators in the order of the list, and in the other order. -/
def Cache.mruList (c : Cache) : List ℕ := c.order.trace (c.iteratorCount + 1) c.order.first

def Cache.lruList (c : Cache) : List ℕ := c.order.flip.trace (c.iteratorCount + 1) c.order.last

/-- An iterator that a search considers: it matches, and its lock is free. -/
def Request.Candidate (request : Request) (c : Cache) (x : ℕ) : Prop :=
  request.Matches (c.iterators x) ∧ c.lock x = none

instance (request : Request) (c : Cache) (x : ℕ) : Decidable (request.Candidate c x) :=
  instDecidableAnd

/-- A search goes no further: the iterator stands at the index or one entry away. -/
def Request.Near (request : Request) (iterator : CatalogIterator) : Prop :=
  request.iteratorIndex iterator = request.index ∨ request.delta iterator = 1

instance (request : Request) (iterator : CatalogIterator) : Decidable (request.Near iterator) :=
  instDecidableOr

/-- The first candidate that is near stands at the index itself, or the index is not 0; without one,
every candidate is further away than the beginning of the folder. -/
def Request.Sound (request : Request) (c : Cache) : Prop :=
  match c.mruList.find? fun x => request.Candidate c x ∧ request.Near (c.iterators x) with
  | some x => request.iteratorIndex (c.iterators x) = request.index ∨ request.index ≠ 0
  | none => ∀ x ∈ c.mruList, request.Candidate c x →
      request.index < request.delta (c.iterators x) ∨ request.delta (c.iterators x) = 0xFFFF

/-- The iterator has a long name. -/
def Cache.Long (c : Cache) (x : ℕ) : Prop := (c.iterators x).nameType = .kLongUnicodeName

instance (c : Cache) (x : ℕ) : Decidable (c.Long x) := inferInstanceAs (Decidable (_ = _))

/-- The iterator has a long name and was not trashed. -/
def Cache.LiveLong (c : Cache) (x : ℕ) : Prop :=
  (c.iterators x).volRefNum ≠ 0 ∧ c.Long x

/-- If an iterator in use gets a long name, then the first iterator with a long name is in use, or
none is. -/
def SoundUpdate (name : List (BitVec 16)) (iterator : ℕ) (c : Cache) : Prop :=
  NeedsLongName name → (c.iterators iterator).nameType = .kShortUnicodeName →
    (c.iterators iterator).volRefNum ≠ 0 → ∀ x, c.mruList.find? (fun x => c.Long x) = some x →
        (c.iterators x).volRefNum ≠ 0 ∨ ∀ y ∈ c.mruList, ¬ c.LiveLong y

/-- The states of the cache, with the threads that hold iterators: those that got one and did not
release it yet.  The holder moves its iterator on.  In a careful run the calls are sound. -/
inductive Run (careful : Prop) : Cache → List (ℕ × ℕ) → Prop
  | initial : Run careful initCatalogCache []
  | get {c c' held thread request iterator} (run : Run careful c held)
      (sound : careful → request.Sound c)
      (returns : getCatalogIterator thread request c = some (iterator, c')) :
      Run careful c' ((thread, iterator) :: held)
  | release {c c' held thread iterator} (run : Run careful c held)
      (holds : (thread, iterator) ∈ held)
      (returns : releaseCatalogIterator thread iterator c = some c') :
      Run careful c' (held.erase (thread, iterator))
  | update {c c' held thread iterator btreeIterator} (run : Run careful c held)
      (holds : (thread, iterator) ∈ held)
      (sound : careful → SoundUpdate btreeIterator.nodeName iterator c)
      (returns : updateCatalogIterator thread btreeIterator iterator c = some c') :
      Run careful c' held
  | advance {c held thread iterator} (currentIndex fileIndex : BitVec 16) (run : Run careful c held)
      (holds : (thread, iterator) ∈ held) :
      Run careful (c.set iterator { c.iterators iterator with currentIndex, fileIndex }) held
  | age {c c' held iterator} (run : Run careful c held) (inside : iterator < kCatalogIteratorCount)
      (returns : ageCatalogIterator iterator c = some c') : Run careful c' held
  | trash {c c' held volume folderID} (run : Run careful c held)
      (returns : trashCatalogIterator volume folderID c = some c') : Run careful c' held

/-! ## The list -/

section List

variable {c c' : Cache} {l : List ℕ} {x y : ℕ}

/-- Each iterator is once in the list. -/
def WellLinked (c : Cache) (l : List ℕ) : Prop :=
  c.iteratorCount = kCatalogIteratorCount ∧ c.order.Holds l ∧
    l.Perm (List.range kCatalogIteratorCount)

variable (linked : WellLinked c l)

include linked

theorem WellLinked.length : l.length = c.iteratorCount := by
  rw [linked.2.2.length_eq, length_range, linked.1]

theorem WellLinked.mem_iff : x ∈ l ↔ x < kCatalogIteratorCount := by
  rw [linked.2.2.mem_iff, mem_range]

theorem WellLinked.mruList : c.mruList = l := by
  rw [Cache.mruList, linked.2.1.first_eq]
  have walk : c.order.Holds ([] ++ l) := linked.2.1
  refine walk.trace_eq ?_
  rw [linked.length]
  exact Nat.le_succ _

theorem WellLinked.lruList : c.lruList = l.reverse := by
  have back := linked.2.1.flip
  have first : c.order.last = l.reverse.head? := back.first_eq
  rw [Cache.lruList, first]
  have walk : c.order.flip.Holds ([] ++ l.reverse) := back
  refine walk.trace_eq ?_
  rw [length_reverse, linked.length]
  exact Nat.le_succ _

theorem WellLinked.next_mem (inside : x ∈ l) (after : c.order.next x = some y) : y ∈ l := by
  obtain ⟨l₁, l₂, rfl⟩ := append_of_mem inside
  rw [linked.2.1.next_eq] at after
  exact mem_append_right _ (mem_cons_of_mem _ (mem_of_head? after))

theorem WellLinked.asMRU (inside : x ∈ l) :
    insertCatalogIteratorAsMRU c x = some { c with order := c.order.moveToFront x } ∧
      WellLinked { c with order := c.order.moveToFront x } (x :: l.erase x) := by
  constructor
  · rw [insertCatalogIteratorAsMRU, linked.2.1.toFront inside]
    rfl
  · exact ⟨linked.1, linked.2.1.moveToFront inside, (perm_cons_erase inside).symm.trans linked.2.2⟩

theorem WellLinked.asLRU (inside : x ∈ l) :
    insertCatalogIteratorAsLRU c x = some { c with order := c.order.moveToBack x } ∧
      WellLinked { c with order := c.order.moveToBack x } (l.erase x ++ [x]) := by
  constructor
  · rw [insertCatalogIteratorAsLRU, linked.2.1.toBack inside]
    rfl
  · exact ⟨linked.1, linked.2.1.moveToBack inside,
      ((perm_append_singleton x _).trans (perm_cons_erase inside).symm).trans linked.2.2⟩

omit linked

theorem wellLinked_init : WellLinked initCatalogCache (List.range kCatalogIteratorCount) := by
  have next : ∀ i < 16, initCatalogCache.order.next i = (List.range 16)[i + 1]? := by decide
  have prev : ∀ i < 15, initCatalogCache.order.prev (i + 1) = (List.range 16)[i]? := by decide
  have here {i x : ℕ} (at_i : (List.range 16)[i]? = some x) : i < 16 ∧ x = i := by
    rw [List.getElem?_eq_some_iff] at at_i
    obtain ⟨within, same⟩ := at_i
    rw [getElem_range] at same
    rw [length_range] at within
    exact ⟨within, same.symm⟩
  refine ⟨rfl, ?_, List.Perm.refl _⟩
  refine Ends.holds_of_getElem? nodup_range rfl rfl ?_ ?_ ?_
  · intro i x at_i
    obtain ⟨within, rfl⟩ := here at_i
    exact next _ within
  · intro x at_i
    obtain ⟨-, rfl⟩ := here at_i
    rfl
  · intro i x at_i
    obtain ⟨within, rfl⟩ := here at_i
    exact prev i (by omega)

/-- Changes of an iterator or a lock leave the list alone. -/
theorem WellLinked.congr (linked : WellLinked c l) (order : c'.order = c.order)
    (count : c'.iteratorCount = c.iteratorCount) : WellLinked c' l := by
  rw [WellLinked, order, count]
  exact linked

end List

/-! ## Trashing -/

section Trash

variable {c c' c₀ : Cache} {volRefNum : BitVec 16} {folderID : BitVec 32} {fuel : ℕ} {x : ℕ}

/-- Nothing but volume numbers and folder numbers became 0. -/
structure Trashed (c c' : Cache) : Prop where
  lock : c'.lock = c.lock
  nameType : ∀ x, (c'.iterators x).nameType = (c.iterators x).nameType
  volRefNum : ∀ x, (c'.iterators x).volRefNum = (c.iterators x).volRefNum ∨
    (c'.iterators x).volRefNum = 0

theorem Trashed.refl (c : Cache) : Trashed c c := ⟨rfl, fun _ => rfl, fun _ => .inl rfl⟩

theorem Trashed.trans (first : Trashed c₀ c) (second : Trashed c c') : Trashed c₀ c' := by
  refine ⟨second.lock.trans first.lock, fun x => (second.nameType x).trans (first.nameType x), ?_⟩
  intro x
  rcases second.volRefNum x with same | zero
  · rw [same]
    exact first.volRefNum x
  · exact .inr zero

/-- One iterator is trashed. -/
theorem trashed_set (c : Cache) (x : ℕ) (order : Ends ℕ) :
    Trashed c { c.set x { c.iterators x with volRefNum := 0, folderID := 0 } with order } := by
  refine ⟨rfl, fun y => ?_, fun y => ?_⟩
  · by_cases same : y = x
    · subst same
      simp [Cache.set]
    · simp [Cache.set, same]
  · by_cases same : y = x
    · subst same
      simp [Cache.set]
    · simp [Cache.set, same]

theorem Trashed.liveLong (trashed : Trashed c c') (live : c'.LiveLong x) : c.LiveLong x := by
  rcases trashed.volRefNum x with same | zero
  · exact ⟨same ▸ live.1, (trashed.nameType x).symm.trans live.2⟩
  · exact absurd zero live.1

theorem trashLoop_spec {l : List ℕ} {node : Option ℕ} (linked : WellLinked c l)
    (inside : ∀ x, node = some x → x ∈ l)
    (returns : trashLoop volRefNum folderID fuel node c = some c') :
    (∃ l', WellLinked c' l') ∧ Trashed c c' := by
  induction fuel generalizing node c l with
  | zero =>
    cases node with
    | none =>
      obtain rfl := some.inj returns
      exact ⟨⟨l, linked⟩, Trashed.refl c⟩
    | some x => cases returns
  | succ fuel ih =>
    cases node with
    | none =>
      obtain rfl := some.inj returns
      exact ⟨⟨l, linked⟩, Trashed.refl c⟩
    | some x =>
      have member := inside x rfl
      rw [trashLoop] at returns
      split_ifs at returns with other matched
      · exact ih linked (fun y after => linked.next_mem member after) returns
      · have linked' :
            WellLinked (c.set x { c.iterators x with volRefNum := 0, folderID := 0 }) l :=
          linked.congr rfl rfl
        dsimp only at returns
        cases after :
            (c.set x { c.iterators x with volRefNum := 0, folderID := 0 }).order.next x with
        | none =>
          rw [after] at returns
          cases returns
          exact ⟨⟨l, linked'⟩, trashed_set c x _⟩
        | some y =>
          obtain ⟨moved, linked''⟩ := linked'.asLRU member
          rw [after] at returns
          rw [moved] at returns
          have still : y ∈ l.erase x ++ [x] := by
            have all := linked'.next_mem member after
            exact ((perm_append_singleton x _).trans (perm_cons_erase member).symm).mem_iff.mpr all
          obtain ⟨linked₃, trashed⟩ := ih linked'' (fun z same => some.inj same ▸ still) returns
          exact ⟨linked₃, (trashed_set c x _).trans trashed⟩
      · exact ih linked (fun y after => linked.next_mem member after) returns

end Trash

/-! ## Searching -/

section Search

variable {c c' : Cache} {thread fuel x : ℕ} {request : Request} {bestDelta d : BitVec 16}
  {bestIterator best : Option ℕ} {p l : List ℕ}

theorem setLock_setLock (free : c.lock x = none) :
    (c.setLock x (some thread)).setLock x none = c := by
  simp only [setLock, Function.update_idem]
  rw [← free, Function.update_eq_self]

theorem setLock_iterators (c : Cache) (x : ℕ) (holder : Option ℕ) :
    (c.setLock x holder).iterators = c.iterators := rfl

/-- A lock that was taken is given back. -/
theorem unlock_setLock (free : c.lock x = none) :
    ciUnlock thread x (c.setLock x (some thread)) = some c := by
  rw [ciUnlock, show (c.setLock x (some thread)).lock x = some thread from update_self ..]
  dsimp only
  rw [if_pos rfl, setLock_setLock free]

/-- An iterator that does not stand at the index is away from it. -/
theorem delta_ne_zero {iterator : CatalogIterator}
    (other : request.iteratorIndex iterator ≠ request.index) : request.delta iterator ≠ 0 := by
  rw [Request.delta]
  split_ifs
  · bv_omega
  · bv_omega
  · decide

/-- No candidate in `l` is near. -/
def Far (request : Request) (c : Cache) (l : List ℕ) : Prop :=
  ∀ y ∈ l, request.Candidate c y → ¬ request.Near (c.iterators y)

/-- What the loop ends with: the first candidate that is near, with its lock; or the best of all,
without. -/
inductive Searched (thread : ℕ) (request : Request) (c : Cache) (l : List ℕ)
    (bestDelta : BitVec 16) (bestIterator : Option ℕ) :
    BitVec 16 × Option ℕ × Cache → Prop
  | near {l₁ x l₂} (split : l = l₁ ++ x :: l₂) (before : Far request c l₁)
      (candidate : request.Candidate c x)
      (found : request.iteratorIndex (c.iterators x) = request.index) :
      Searched thread request c l bestDelta bestIterator (0, some x, c.setLock x (some thread))
  | next {l₁ x l₂} (split : l = l₁ ++ x :: l₂) (before : Far request c l₁)
      (candidate : request.Candidate c x)
      (other : request.iteratorIndex (c.iterators x) ≠ request.index)
      (near : request.delta (c.iterators x) = 1) :
      Searched thread request c l bestDelta bestIterator (1, some x, c.setLock x (some thread))
  | kept (far : Far request c l)
      (least : ∀ y ∈ l, request.Candidate c y → bestDelta ≤ request.delta (c.iterators y)) :
      Searched thread request c l bestDelta bestIterator (bestDelta, bestIterator, c)
  | better {y} (far : Far request c l) (inside : y ∈ l) (candidate : request.Candidate c y)
      (improves : request.delta (c.iterators y) < bestDelta)
      (least : ∀ z ∈ l, request.Candidate c z →
        request.delta (c.iterators y) ≤ request.delta (c.iterators z)) :
      Searched thread request c l bestDelta bestIterator (request.delta (c.iterators y), some y, c)

variable {r : BitVec 16 × Option ℕ × Cache} {b : ℕ}

theorem Searched.skip (far : ¬ request.Candidate c x)
    (searched : Searched thread request c l bestDelta bestIterator r) :
    Searched thread request c (x :: l) bestDelta bestIterator r := by
  have cons {l : List ℕ} (rest : Far request c l) : Far request c (x :: l) := by
    intro y inside candidate
    rcases mem_cons.mp inside with rfl | inside
    · exact absurd candidate far
    · exact rest y inside candidate
  cases searched with
  | near split before candidate found =>
    exact .near (congrArg (x :: ·) split) (cons before) candidate found
  | next split before candidate other near =>
    exact .next (congrArg (x :: ·) split) (cons before) candidate other near
  | kept rest least =>
    refine .kept (cons rest) fun y inside candidate => ?_
    rcases mem_cons.mp inside with rfl | inside
    · exact absurd candidate far
    · exact least y inside candidate
  | better rest inside candidate improves least =>
    refine .better (cons rest) (mem_cons_of_mem _ inside) candidate improves ?_
    intro z inside candidate
    rcases mem_cons.mp inside with rfl | inside
    · exact absurd candidate far
    · exact least z inside candidate

theorem Searched.pass (candidate : request.Candidate c x) (far : ¬ request.Near (c.iterators x))
    (searched : Searched thread request c l
      (if request.delta (c.iterators x) < bestDelta then request.delta (c.iterators x)
        else bestDelta)
      (if request.delta (c.iterators x) < bestDelta then some x else bestIterator) r) :
    Searched thread request c (x :: l) bestDelta bestIterator r := by
  have cons {l : List ℕ} (rest : Far request c l) : Far request c (x :: l) := by
    intro y inside candidate
    rcases mem_cons.mp inside with rfl | inside
    · exact far
    · exact rest y inside candidate
  cases searched with
  | near split before candidate found =>
    exact .near (congrArg (x :: ·) split) (cons before) candidate found
  | next split before candidate other near =>
    exact .next (congrArg (x :: ·) split) (cons before) candidate other near
  | kept rest least =>
    by_cases improves : request.delta (c.iterators x) < bestDelta
    · simp only [if_pos improves] at least ⊢
      refine .better (cons rest) mem_cons_self candidate improves ?_
      intro z inside candidate
      rcases mem_cons.mp inside with rfl | inside
      · exact BitVec.le_refl _
      · exact least z inside candidate
    · simp only [if_neg improves] at least ⊢
      refine .kept (cons rest) fun y inside candidate => ?_
      rcases mem_cons.mp inside with rfl | inside
      · exact BitVec.not_lt.mp improves
      · exact least y inside candidate
  | better rest inside candidate' improves least =>
    refine .better (cons rest) (mem_cons_of_mem _ inside) candidate' ?_ ?_
    · split_ifs at improves with nearer
      · bv_omega
      · exact improves
    intro z inside' candidate
    rcases mem_cons.mp inside' with rfl | inside'
    · split_ifs at improves with nearer
      · bv_omega
      · bv_omega
    · exact least z inside' candidate

theorem searchLoop_spec (holds : c.order.Holds (p ++ l)) (start : 1 < bestDelta)
    (returns : searchLoop thread request fuel l.head? bestDelta bestIterator c = some r) :
    Searched thread request c l bestDelta bestIterator r := by
  induction l generalizing p fuel bestDelta bestIterator with
  | nil =>
    obtain rfl : (bestDelta, bestIterator, c) = r := by
      cases fuel <;> exact some.inj returns
    exact .kept (forall_mem_nil _) fun y inside => absurd inside not_mem_nil
  | cons x l ih =>
    have rest : c.order.Holds ((p ++ [x]) ++ l) := by rwa [append_assoc]
    cases fuel with
    | zero => cases returns
    | succ fuel =>
      rw [List.head?_cons, searchLoop, holds.next_eq] at returns
      by_cases matched : request.Matches (c.iterators x)
      · rw [if_neg (not_not.mpr matched)] at returns
        rw [ciSleeplessLock] at returns
        cases held : c.lock x with
        | none =>
          have candidate : request.Candidate c x := ⟨matched, held⟩
          rw [held] at returns
          dsimp only at returns
          rw [setLock_iterators, unlock_setLock held] at returns
          dsimp only at returns
          rw [holds.next_eq] at returns
          have nothing : Far request c [] := fun y inside => absurd inside not_mem_nil
          have first : x :: l = [] ++ x :: l := rfl
          by_cases found : request.iteratorIndex (c.iterators x) = request.index
          · rw [if_pos found] at returns
            cases returns
            exact .near first nothing candidate found
          rw [if_neg found] at returns
          by_cases near : request.delta (c.iterators x) = 1
          · have closer : request.delta (c.iterators x) < bestDelta := near ▸ start
            rw [if_pos ⟨closer, near⟩, near] at returns
            cases returns
            exact .next first nothing candidate found near
          · rw [if_neg (fun both => near both.2)] at returns
            have far : ¬ request.Near (c.iterators x) := fun either => either.elim found near
            refine .pass candidate far (ih rest ?_ returns)
            split_ifs with improves
            · have some := delta_ne_zero found
              bv_omega
            · exact start
        | some holder =>
          rw [held] at returns
          dsimp only at returns
          have busy : ¬ request.Candidate c x := fun candidate => by
            rw [candidate.2] at held
            cases held
          split_ifs at returns
          exact (ih rest start returns).skip busy
      · rw [if_pos matched] at returns
        exact (ih rest start returns).skip fun candidate => matched candidate.1

/-- A search changes nothing but a lock. -/
theorem Searched.frame
    (searched : Searched thread request c l bestDelta bestIterator (d, best, c')) :
    c'.order = c.order ∧ c'.iterators = c.iterators ∧ c'.iteratorCount = c.iteratorCount := by
  cases searched <;> exact ⟨rfl, rfl, rfl⟩

theorem Searched.mem (searched : Searched thread request c l bestDelta none (d, some x, c')) :
    x ∈ l := by
  cases searched with
  | near split before candidate found =>
    rw [split]
    exact mem_append_cons_self
  | next split before candidate other near =>
    rw [split]
    exact mem_append_cons_self
  | better far inside candidate improves least => exact inside

variable (linked : WellLinked c l)

include linked

variable (returns : getCatalogIterator thread request c = some (b, c'))

include returns

/-- The two ends of `GetCatalogIterator`: the iterator found, or the last one, which starts over. -/
theorem getCatalogIterator_cases :
    b ∈ l ∧ ∃ d best c₁, Searched thread request c l 0xFFFF none (d, best, c₁) ∧
      (best = some b ∧ ¬ request.index < d ∧ c' = { c₁ with order := c.order.moveToFront b } ∨
      (best = none ∨ request.index < d) ∧ c₁.lock b = none ∧
        c' = { (c₁.setLock b (some thread)).set b (request.fresh (c.iterators b)) with
          order := c.order.moveToFront b }) := by
  rw [getCatalogIterator, linked.2.1.first_eq] at returns
  cases search : searchLoop thread request c.iteratorCount l.head? 0xFFFF none c with
  | none =>
    rw [search] at returns
    cases returns
  | some r =>
    obtain ⟨d, best, c₁⟩ := r
    have walk : c.order.Holds ([] ++ l) := linked.2.1
    have searched := searchLoop_spec walk (by decide) search
    obtain ⟨order, iterators, count⟩ := searched.frame
    have linked₁ := linked.congr order count
    rw [search] at returns
    simp only [bind_eq_bind, bind_some] at returns
    -- the list ends in an iterator
    obtain ⟨last, final⟩ : ∃ last, l.getLast? = some last := by
      cases final : l.getLast? with
      | none =>
        have length := linked.2.2.length_eq
        rw [List.getLast?_eq_none_iff.mp final] at length
        cases length
      | some last => exact ⟨last, rfl⟩
    have final_mem := mem_of_getLast? final
    have recycles (returns : (getCatalogIterator.recycle thread request c₁).bind
        (fun found => (insertCatalogIteratorAsMRU found.2 found.1).bind
          fun c => some (found.1, c)) = some (b, c')) :
        b ∈ l ∧ c₁.lock b = none ∧
          c' = { (c₁.setLock b (some thread)).set b (request.fresh (c.iterators b)) with
            order := c.order.moveToFront b } := by
      rw [getCatalogIterator.recycle, linked₁.2.1.last_eq, final] at returns
      simp only [bind_eq_bind, bind_some] at returns
      rw [ciLockFromList] at returns
      cases free : c₁.lock last with
      | some holder =>
        rw [free] at returns
        cases returns
      | none =>
        rw [free] at returns
        simp only [bind_some] at returns
        have linked₂ : WellLinked ((c₁.setLock last (some thread)).set last
            (request.fresh ((c₁.setLock last (some thread)).iterators last))) l :=
          linked₁.congr rfl rfl
        rw [(linked₂.asMRU final_mem).1] at returns
        cases returns
        refine ⟨final_mem, free, ?_⟩
        rw [setLock_iterators, iterators, ← order]
        rfl
    cases best with
    | none =>
      obtain ⟨inside, free, changed⟩ := recycles returns
      exact ⟨inside, d, none, c₁, searched, .inr ⟨.inl rfl, free, changed⟩⟩
    | some x =>
      dsimp only at returns
      by_cases closer : request.index < d
      · rw [if_pos closer] at returns
        obtain ⟨inside, free, changed⟩ := recycles returns
        exact ⟨inside, d, some x, c₁, searched, .inr ⟨.inr closer, free, changed⟩⟩
      rw [if_neg closer] at returns
      rw [(linked₁.asMRU searched.mem).1] at returns
      obtain ⟨rfl, rfl⟩ := Prod.mk.inj (some.inj returns)
      refine ⟨searched.mem, d, some x, c₁, searched, Or.inl ⟨rfl, closer, ?_⟩⟩
      rw [order]

/-- A request takes the lock of the iterator that it returns, and no other, just when it is
sound. -/
theorem getCatalogIterator_sound_iff :
    request.Sound c ↔ c.lock b = none ∧ c'.lock = Function.update c.lock b (some thread) := by
  obtain ⟨-, d, best, c₁, searched, ends⟩ := getCatalogIterator_cases linked returns
  rw [Request.Sound, linked.mruList]
  have absent {l : List ℕ} (far : Far request c l) :
      l.find? (fun x => request.Candidate c x ∧ request.Near (c.iterators x)) = none := by
    rw [List.find?_eq_none]
    intro y inside both
    obtain ⟨candidate, near⟩ := of_decide_eq_true both
    exact far y inside candidate near
  have present {l₁ l₂ : List ℕ} {x : ℕ} (far : Far request c l₁)
      (both : request.Candidate c x ∧ request.Near (c.iterators x)) :
      (l₁ ++ x :: l₂).find? (fun x => request.Candidate c x ∧ request.Near (c.iterators x)) =
        some x := by
    rw [List.find?_append, absent far, none_or]
    exact List.find?_cons_of_pos (decide_eq_true both)
  cases searched with
  | near split before candidate found =>
    rw [split, present before ⟨candidate, .inl found⟩]
    rcases ends with ⟨same, -, rfl⟩ | ⟨far | closer, -, -⟩
    · cases same
      exact iff_of_true (.inl found) ⟨candidate.2, rfl⟩
    · cases far
    · bv_omega
  | @next _ x _ split before candidate other near =>
    rw [split, present before ⟨candidate, .inr near⟩]
    rcases ends with ⟨same, positive, rfl⟩ | ⟨far | closer, free, rfl⟩
    · cases same
      refine iff_of_true (.inr ?_) ⟨candidate.2, rfl⟩
      rintro zero
      exact positive (zero ▸ by decide)
    · cases far
    -- the iterator one entry away keeps its lock
    have zero : request.index = 0 := by bv_omega
    refine iff_of_false (fun sound => sound.elim other (· zero)) ?_
    rintro ⟨-, lock⟩
    have apart : x ≠ b := by
      rintro rfl
      have taken : (c.setLock x (some thread)).lock x = some thread := update_self ..
      rw [taken] at free
      cases free
    have left : Function.update (Function.update c.lock x (some thread)) b (some thread) x =
        Function.update c.lock b (some thread) x := congrFun lock x
    rw [update_of_ne apart, update_self, update_of_ne apart, candidate.2] at left
    cases left
  | kept far least =>
    rw [absent far]
    rcases ends with ⟨same, -⟩ | ⟨-, free, rfl⟩
    · cases same
    · refine iff_of_true (fun x inside candidate => .inr ?_) ⟨free, rfl⟩
      have most := least x inside candidate
      bv_omega
  | @better y far inside candidate improves least =>
    rw [absent far]
    rcases ends with ⟨same, reached, rfl⟩ | ⟨none | closer, free, rfl⟩
    · -- the best iterator was unlocked when the loop went on
      obtain rfl := some.inj same
      refine iff_of_false (fun sound => ?_) ?_
      · rcases sound _ inside candidate with further | unreachable
        · exact reached further
        · rw [unreachable] at improves
          exact absurd improves (BitVec.lt_irrefl _)
      · rintro ⟨-, lock⟩
        have taken : c.lock y = some thread := by
          rw [lock, update_self]
        rw [candidate.2] at taken
        cases taken
    · cases none
    · refine iff_of_true (fun x inside candidate => .inl ?_) ⟨free, rfl⟩
      have most := least x inside candidate
      bv_omega

/-- A request returns an iterator that nobody held. -/
theorem getCatalogIterator_free :
    b ∈ l ∧ c.lock b = none := by
  obtain ⟨inside, d, best, c₁, searched, ends⟩ := getCatalogIterator_cases linked returns
  refine ⟨inside, ?_⟩
  have still {x : ℕ} (free : (c.setLock x (some thread)).lock b = none) : c.lock b = none := by
    by_cases same : b = x
    · subst same
      have taken : (c.setLock b (some thread)).lock b = some thread := update_self ..
      rw [taken] at free
      cases free
    · have kept : (c.setLock x (some thread)).lock b = c.lock b := update_of_ne same ..
      rwa [← kept]
  rcases ends with ⟨rfl, -⟩ | ⟨-, free, -⟩
  · cases searched with
    | near split before candidate found => exact candidate.2
    | next split before candidate other near => exact candidate.2
    | better far inside candidate improves least => exact candidate.2
  · cases searched with
    | near split before candidate found => exact still free
    | next split before candidate other near => exact still free
    | kept far least => exact free
    | better far inside candidate improves least => exact free

/-- What a request does to the iterators: at most, one starts over. -/
theorem getCatalogIterator_frame :
    (∃ l', WellLinked c' l') ∧ (c'.iterators = c.iterators ∨
      c'.iterators = Function.update c.iterators b (request.fresh (c.iterators b))) := by
  obtain ⟨inside, d, best, c₁, searched, ends⟩ := getCatalogIterator_cases linked returns
  obtain ⟨order, iterators, count⟩ := searched.frame
  have moved := (linked.asMRU inside).2
  rcases ends with ⟨-, -, rfl⟩ | ⟨-, -, rfl⟩
  · exact ⟨⟨_, moved.congr rfl count⟩, .inl iterators⟩
  · refine ⟨⟨_, moved.congr rfl count⟩, .inr ?_⟩
    rw [← iterators]
    rfl

end Search

/-! ## Names -/

section Names

variable {c c' : Cache} {thread fuel x b : ℕ} {p l : List ℕ} {btreeIterator : BTreeIterator}

/-- The first iterator with a long name is trashed and goes to the end of the list. -/
theorem prepareLoop_spec (linked : WellLinked c (p ++ l))
    (returns : prepareLoop thread fuel l.head? c = some c') :
    l.find? (fun x => c.Long x) = none ∧ c' = c ∨
    ∃ x, l.find? (fun x => c.Long x) = some x ∧
      c' = { c.set x { c.iterators x with volRefNum := 0, folderID := 0 } with
        order := c.order.moveToBack x } := by
  induction l generalizing p fuel with
  | nil =>
    obtain rfl : c = c' := by
      cases fuel <;> exact some.inj returns
    exact .inl ⟨rfl, rfl⟩
  | cons x l ih =>
    cases fuel with
    | zero => cases returns
    | succ fuel =>
      rw [List.head?_cons, prepareLoop] at returns
      by_cases long : c.Long x
      · refine .inr ⟨x, List.find?_cons_of_pos (decide_eq_true long), ?_⟩
        rw [if_pos (show (c.iterators x).nameType = .kLongUnicodeName from long)] at returns
        have inside : x ∈ p ++ x :: l := mem_append_cons_self
        -- an iterator that is last already stays where it is
        have moved : (if c.order.next x ≠ none then insertCatalogIteratorAsLRU c x else some c) =
            some { c with order := c.order.moveToBack x } := by
          by_cases final : c.order.next x = none
          · have last : c.order.last = some x := by
              have after := linked.2.1.next_eq
              rw [final] at after
              have nothing := List.head?_eq_none_iff.mp after.symm
              rw [linked.2.1.last_eq, nothing, List.getLast?_concat]
            have still : c.order.moveToBack x = c.order := by
              rw [Ends.moveToBack, if_neg (not_not.mpr last)]
            rw [if_neg (not_not.mpr final), still]
          · rw [if_pos final, (linked.asLRU inside).1]
        rw [moved] at returns
        simp only [bind_eq_bind, bind_some, ciLockFromList] at returns
        cases free : c.lock x with
        | some holder =>
          rw [free] at returns
          cases returns
        | none =>
          rw [free, bind_some] at returns
          have taken : ciUnlock thread x (({ c with order := c.order.moveToBack x }.set x
              { c.iterators x with volRefNum := 0, folderID := 0 }).setLock x (some thread)) =
              some _ := unlock_setLock free
          exact (some.inj (taken.symm.trans returns)).symm
      · rw [if_neg (show ¬ (c.iterators x).nameType = .kLongUnicodeName from long),
          linked.2.1.next_eq] at returns
        rw [List.find?_cons_of_neg (by simpa using long)]
        have rest : WellLinked c ((p ++ [x]) ++ l) := by rwa [append_assoc]
        exact ih rest returns

/-- The iterators agree on their volumes and name types. -/
def SameTypes (c c' : Cache) : Prop :=
  ∀ y, (c'.iterators y).nameType = (c.iterators y).nameType ∧
    (c'.iterators y).volRefNum = (c.iterators y).volRefNum

theorem sameTypes_set {iterator : CatalogIterator} (c : Cache) (b : ℕ)
    (nameType : iterator.nameType = (c.iterators b).nameType)
    (volRefNum : iterator.volRefNum = (c.iterators b).volRefNum) :
    SameTypes c (c.set b iterator) := by
  intro y
  by_cases same : y = b
  · subst same
    simp [Cache.set, nameType, volRefNum]
  · simp [Cache.set, same]

/-- The types after an iterator has got the long name: the first iterator that had one is
trashed. -/
def Prepared (c c' : Cache) (b : ℕ) : Prop :=
  ∀ y, (c'.LiveLong y ↔
    if y = b then (c.iterators b).volRefNum ≠ 0
    else c.LiveLong y ∧ c.mruList.find? (fun x => c.Long x) ≠ some y)

theorem SameTypes.liveLong {c c' : Cache} (same : SameTypes c c') (y : ℕ) :
    c'.LiveLong y ↔ c.LiveLong y := by
  rw [LiveLong, LiveLong, Long, Long, (same y).1, (same y).2]

theorem SameTypes.find? {c c' : Cache} (same : SameTypes c c') (l : List ℕ) :
    l.find? (fun x => c'.Long x) = l.find? (fun x => c.Long x) := by
  have long : (fun x => decide (c'.Long x)) = fun x => decide (c.Long x) := by
    funext x
    exact decide_eq_decide.mpr (by rw [Long, Long, (same x).1])
  rw [long]

theorem prepareForLongName_spec (linked : WellLinked c l)
    (short : (c.iterators b).nameType = .kShortUnicodeName)
    (returns : prepareForLongName thread b c = some c') :
    (∃ l', WellLinked c' l') ∧ c'.lock = c.lock ∧ Prepared c c' b := by
  rw [prepareForLongName, linked.2.1.first_eq] at returns
  cases loop : prepareLoop thread c.iteratorCount l.head? c with
  | none =>
    rw [loop] at returns
    cases returns
  | some c₂ =>
    rw [loop] at returns
    cases returns
    have walk : WellLinked c ([] ++ l) := linked
    rcases prepareLoop_spec walk loop with ⟨nobody, rfl⟩ | ⟨x, first, rfl⟩
    · refine ⟨⟨l, linked.congr rfl rfl⟩, rfl, fun y => ?_⟩
      rw [linked.mruList, nobody]
      by_cases same : y = b
      · subst same
        simp [Cache.LiveLong, Cache.Long, Cache.set]
      · simp [Cache.LiveLong, Cache.Long, Cache.set, same]
    · have inside := mem_of_find?_eq_some first
      have long : c.Long x := by simpa using List.find?_some first
      have other : b ≠ x := by
        rintro rfl
        rw [Long, short] at long
        cases long
      refine ⟨⟨_, (linked.asLRU inside).2.congr rfl rfl⟩, rfl, fun y => ?_⟩
      rw [linked.mruList, first]
      by_cases same : y = b
      · subst same
        simp [Cache.LiveLong, Cache.Long, Cache.set, other]
      by_cases trashed : y = x
      · subst trashed
        simp [Cache.LiveLong, Cache.Long, Cache.set, same]
      · have apart : ¬ x = y := fun equal => trashed equal.symm
        simp [Cache.LiveLong, Cache.Long, Cache.set, same, trashed, apart]

theorem updateCatalogIterator_spec (linked : WellLinked c l)
    (returns : updateCatalogIterator thread btreeIterator b c = some c') :
    (∃ l', WellLinked c' l') ∧ c'.lock = c.lock ∧
      if NeedsLongName btreeIterator.nodeName ∧ (c.iterators b).nameType = .kShortUnicodeName
      then Prepared c c' b else SameTypes c c' := by
  have hints : SameTypes c (c.set b { c.iterators b with
      btreeNodeHint := btreeIterator.nodeNum
      btreeIndexHint := btreeIterator.index
      parentID := btreeIterator.parentID }) := sameTypes_set c b rfl rfl
  have linked₁ : WellLinked (c.set b { c.iterators b with
      btreeNodeHint := btreeIterator.nodeNum
      btreeIndexHint := btreeIterator.index
      parentID := btreeIterator.parentID }) l := linked.congr rfl rfl
  have lock : (c.set b { c.iterators b with
      btreeNodeHint := btreeIterator.nodeNum
      btreeIndexHint := btreeIterator.index
      parentID := btreeIterator.parentID }).lock = c.lock := rfl
  rw [updateCatalogIterator] at returns
  rw [(hints b).1] at returns
  generalize c.set b _ = c₁ at hints linked₁ lock returns
  -- the name goes into the iterator itself
  have named (name : List (BitVec 16)) :
      (∃ l', WellLinked (updateCatalogIterator.setName b name c₁) l') ∧
        (updateCatalogIterator.setName b name c₁).lock = c.lock ∧
        SameTypes c (updateCatalogIterator.setName b name c₁) := by
    refine ⟨⟨l, linked₁.congr rfl rfl⟩, lock, fun y => ?_⟩
    have types : SameTypes c₁ (c₁.set b { c₁.iterators b with folderName := name }) :=
      sameTypes_set c₁ b rfl rfl
    exact ⟨(types y).1.trans (hints y).1, (types y).2.trans (hints y).2⟩
  cases type : (c.iterators b).nameType with
  | kShortPascalName =>
    rw [type] at returns
    cases returns
    rw [if_neg (by nofun)]
    exact named _
  | kShortUnicodeName =>
    rw [type] at returns
    by_cases needs : NeedsLongName btreeIterator.nodeName
    · rw [if_pos needs] at returns
      rw [if_pos ⟨needs, rfl⟩]
      obtain ⟨c₂, prepares, rfl⟩ := map_eq_some_iff.mp returns
      obtain ⟨⟨l', linked₂⟩, lock₂, prepared⟩ :=
        prepareForLongName_spec linked₁ ((hints b).1.trans type) prepares
      refine ⟨⟨l', linked₂.congr rfl rfl⟩, lock₂.trans lock, fun y => ?_⟩
      have spec := prepared y
      rw [linked₁.mruList, hints.find?, hints.liveLong, (hints b).2, ← linked.mruList] at spec
      exact spec
    · rw [if_neg needs] at returns
      cases returns
      rw [if_neg (fun both => needs both.1)]
      exact named _
  | kLongUnicodeName =>
    rw [type] at returns
    cases returns
    rw [if_neg (by nofun)]
    exact ⟨⟨l, linked₁.congr rfl rfl⟩, lock, hints⟩

end Names

/-! ## Every run -/

section Run

variable {c c' : Cache} {held : List (ℕ × ℕ)} {careful : Prop}

/-- The list survives every run. -/
theorem Run.wellLinked (run : Run careful c held) : ∃ l, WellLinked c l := by
  induction run with
  | initial => exact ⟨_, wellLinked_init⟩
  | get run sound returns ih =>
    obtain ⟨l, linked⟩ := ih
    exact (getCatalogIterator_frame linked returns).1
  | release run holds returns ih =>
    obtain ⟨l, linked⟩ := ih
    rw [releaseCatalogIterator, ciUnlock] at returns
    split at returns
    · cases returns
      exact ⟨l, linked⟩
    · split_ifs at returns
      cases returns
      exact ⟨l, linked.congr rfl rfl⟩
  | update run holds sound returns ih =>
    obtain ⟨l, linked⟩ := ih
    exact (updateCatalogIterator_spec linked returns).1
  | advance currentIndex fileIndex run holds ih =>
    obtain ⟨l, linked⟩ := ih
    exact ⟨l, linked.congr rfl rfl⟩
  | age run inside returns ih =>
    obtain ⟨l, linked⟩ := ih
    have moved := linked.asLRU (linked.mem_iff.mpr inside)
    cases moved.1.symm.trans returns
    exact ⟨_, moved.2⟩
  | trash run returns ih =>
    obtain ⟨l, linked⟩ := ih
    refine (trashLoop_spec linked ?_ returns).1
    intro x first
    rw [linked.2.1.first_eq] at first
    exact mem_of_head? first

/-- Who got an iterator and did not release it holds its lock, no other lock is held, and one
iterator in use at most has a long name. -/
structure Owned (c : Cache) (held : List (ℕ × ℕ)) : Prop where
  locked : ∀ thread iterator, (thread, iterator) ∈ held → c.lock iterator = some thread
  unlocked : ∀ iterator, (∀ thread, (thread, iterator) ∉ held) → c.lock iterator = none
  once : held.Nodup
  long : ∀ x ∈ c.mruList, ∀ y ∈ c.mruList, c.LiveLong x → c.LiveLong y → x = y

variable {l : List ℕ} {thread b : ℕ} {request : Request}

theorem WellLinked.perm {l' : List ℕ} (linked : WellLinked c l) (linked' : WellLinked c' l') :
    c'.mruList.Perm c.mruList := by
  rw [linked.mruList, linked'.mruList]
  exact linked'.2.2.trans linked.2.2.symm

/-- No iterator in use gets a long name. -/
theorem Owned.congr (owned : Owned c held) (list : c'.mruList.Perm c.mruList)
    (lock : c'.lock = c.lock) (live : ∀ y, c'.LiveLong y → c.LiveLong y) : Owned c' held := by
  refine ⟨?_, ?_, owned.once, ?_⟩
  · rw [lock]
    exact owned.locked
  · rw [lock]
    exact owned.unlocked
  · intro x inside y inside' live_x live_y
    exact owned.long x (list.mem_iff.mp inside) y (list.mem_iff.mp inside') (live x live_x)
      (live y live_y)

/-- A thread takes a free iterator. -/
theorem Owned.take (owned : Owned c held) (free : c.lock b = none)
    (list : c'.mruList.Perm c.mruList) (lock : c'.lock = Function.update c.lock b (some thread))
    (live : ∀ y, c'.LiveLong y → c.LiveLong y) : Owned c' ((thread, b) :: held) := by
  have fresh (t : ℕ) : (t, b) ∉ held := by
    intro member
    rw [owned.locked t b member] at free
    cases free
  constructor
  case locked =>
    intro t x member
    rw [lock]
    rcases mem_cons.mp member with same | before
    · cases same
      exact update_self ..
    have other : x ≠ b := by
      rintro rfl
      exact fresh t before
    rw [update_of_ne other]
    exact owned.locked t x before
  case unlocked =>
    intro x nobody
    have other : x ≠ b := by
      rintro rfl
      exact nobody thread mem_cons_self
    rw [lock, update_of_ne other]
    exact owned.unlocked x fun t member => nobody t (mem_cons_of_mem _ member)
  case once => exact nodup_cons.mpr ⟨fresh thread, owned.once⟩
  case long =>
    intro x inside y inside' live_x live_y
    exact owned.long x (list.mem_iff.mp inside) y (list.mem_iff.mp inside') (live x live_x)
      (live y live_y)

/-- A thread gives its iterator back. -/
theorem Owned.release (owned : Owned c held) (member : (thread, b) ∈ held) :
    Owned (c.setLock b none) (held.erase (thread, b)) := by
  have own := owned.locked thread b member
  constructor
  case locked =>
    intro t x still
    have other : x ≠ b := by
      rintro rfl
      have own' := owned.locked t x (mem_of_mem_erase still)
      obtain rfl : thread = t := some.inj (own.symm.trans own')
      exact owned.once.not_mem_erase still
    have free : (c.setLock b none).lock x = c.lock x := update_of_ne other ..
    rw [free]
    exact owned.locked t x (mem_of_mem_erase still)
  case unlocked =>
    intro x nobody
    by_cases same : x = b
    · subst same
      exact update_self ..
    have free : (c.setLock b none).lock x = c.lock x := update_of_ne same ..
    rw [free]
    refine owned.unlocked x fun t before => nobody t ?_
    exact (mem_erase_of_ne fun equal => same (Prod.mk.inj equal).2).mpr before
  case once => exact owned.once.erase _
  case long => exact owned.long

/-- An iterator that starts over has a short name. -/
theorem liveLong_of_fresh {y : ℕ}
    (fresh : c'.iterators = Function.update c.iterators b (request.fresh (c.iterators b)))
    (live : c'.LiveLong y) : c.LiveLong y := by
  rw [LiveLong, Long, fresh] at live
  by_cases same : y = b
  · subst same
    rw [update_self] at live
    have short := live.2
    rw [Request.fresh] at short
    split_ifs at short
  · rw [update_of_ne same] at live
    exact live

/-- An iterator in use gets the long name: the one in use that had it is trashed. -/
theorem Owned.prepare {name : List (BitVec 16)} (owned : Owned c held)
    (list : c'.mruList.Perm c.mruList) (lock : c'.lock = c.lock) (needs : NeedsLongName name)
    (short : (c.iterators b).nameType = .kShortUnicodeName) (sound : SoundUpdate name b c)
    (prepared : Prepared c c' b) : Owned c' held := by
  -- nothing but `b` has a long name, if `b` is in use
  have only {y : ℕ} (inside : y ∈ c.mruList) (other : y ≠ b)
      (inUse : (c.iterators b).volRefNum ≠ 0) : ¬ c'.LiveLong y := by
    intro live
    obtain ⟨live, untouched⟩ := (if_neg other ▸ prepared y).mp live
    cases first : c.mruList.find? (fun x => c.Long x) with
    | none =>
      rw [List.find?_eq_none] at first
      exact first y inside (decide_eq_true live.2)
    | some x =>
      rcases sound needs short inUse x first with trashed | nobody
      · have long : c.Long x := by simpa using List.find?_some first
        have same := owned.long y inside x (mem_of_find?_eq_some first) live ⟨trashed, long⟩
        exact untouched (same ▸ first)
      · exact nobody y inside live
  refine ⟨?_, ?_, owned.once, ?_⟩
  · rw [lock]
    exact owned.locked
  · rw [lock]
    exact owned.unlocked
  intro x inside y inside' live live'
  have inside := list.mem_iff.mp inside
  have inside' := list.mem_iff.mp inside'
  by_cases inUse : (c.iterators b).volRefNum = 0
  · -- `b` was trashed meanwhile
    have before {z : ℕ} (live : c'.LiveLong z) : c.LiveLong z := by
      have spec := (prepared z).mp live
      split_ifs at spec with same
      · exact absurd inUse spec
      · exact spec.1
    exact owned.long x inside y inside' (before live) (before live')
  · have same {z : ℕ} (inside : z ∈ c.mruList) (live : c'.LiveLong z) : z = b := by
      by_contra other
      exact only inside other inUse live
    rw [same inside live, same inside' live']

/-- In a careful run every iterator is owned. -/
theorem Run.owned (run : Run True c held) : Owned c held := by
  induction run with
  | initial =>
    refine ⟨?_, fun _ _ => rfl, nodup_nil, ?_⟩
    · intro thread iterator member
      cases member
    · intro x _ y _ live
      exact absurd rfl live.1
  | get run sound returns ih =>
    obtain ⟨l, linked⟩ := run.wellLinked
    obtain ⟨free, lock⟩ := (getCatalogIterator_sound_iff linked returns).mp (sound trivial)
    obtain ⟨⟨l', linked'⟩, iterators⟩ := getCatalogIterator_frame linked returns
    refine ih.take free (linked.perm linked') lock fun y live => ?_
    rcases iterators with same | fresh
    · rw [LiveLong, Long, same] at live
      exact live
    · exact liveLong_of_fresh fresh live
  | release run holds returns ih =>
    rw [releaseCatalogIterator, ciUnlock, ih.locked _ _ holds] at returns
    dsimp only at returns
    rw [if_pos rfl] at returns
    cases returns
    exact ih.release holds
  | update run holds sound returns ih =>
    obtain ⟨l, linked⟩ := run.wellLinked
    obtain ⟨⟨l', linked'⟩, lock, types⟩ := updateCatalogIterator_spec linked returns
    have list := linked.perm linked'
    split_ifs at types with long
    · exact ih.prepare list lock long.1 long.2 (sound trivial) types
    · exact ih.congr list lock fun y live => (types.liveLong y).mp live
  | @advance c held thread b currentIndex fileIndex run holds ih =>
    obtain ⟨l, linked⟩ := run.wellLinked
    have types : SameTypes c (c.set b { c.iterators b with currentIndex, fileIndex }) :=
      sameTypes_set c b rfl rfl
    have linked' : WellLinked (c.set b { c.iterators b with currentIndex, fileIndex }) l :=
      linked.congr rfl rfl
    exact ih.congr (linked.perm linked') rfl fun y live => (types.liveLong y).mp live
  | age run inside returns ih =>
    obtain ⟨l, linked⟩ := run.wellLinked
    have moved := linked.asLRU (linked.mem_iff.mpr inside)
    cases moved.1.symm.trans returns
    exact ih.congr (linked.perm moved.2) rfl fun y live => live
  | @trash c c' held volume folderID run returns ih =>
    obtain ⟨l, linked⟩ := run.wellLinked
    have first : ∀ x, c.order.first = some x → x ∈ l := fun x first => by
      rw [linked.2.1.first_eq] at first
      exact mem_of_head? first
    obtain ⟨⟨l', linked'⟩, trashed⟩ := trashLoop_spec linked first returns
    exact ih.congr (linked.perm linked') trashed.lock fun y live => trashed.liveLong live

/-! ## The discipline -/

/-- Both orders go through each iterator once, one backwards; an iterator is locked by the thread
that got it and did not release it, and free if there is none; one iterator in use at most has a
long name. -/
structure Disciplined (c : Cache) (held : List (ℕ × ℕ)) : Prop where
  each : c.mruList.Perm (List.range kCatalogIteratorCount)
  reverse : c.lruList = c.mruList.reverse
  locked : ∀ thread iterator, (thread, iterator) ∈ held → c.lock iterator = some thread
  unlocked : ∀ iterator, (∀ thread, (thread, iterator) ∉ held) → c.lock iterator = none
  long : ∀ x ∈ c.mruList, ∀ y ∈ c.mruList, c.LiveLong x → c.LiveLong y → x = y

theorem Run.disciplined (run : Run True c held) : Disciplined c held := by
  obtain ⟨l, linked⟩ := run.wellLinked
  have owned := run.owned
  refine ⟨?_, ?_, owned.locked, owned.unlocked, owned.long⟩
  · rw [linked.mruList]
    exact linked.2.2
  · rw [linked.lruList, linked.mruList]

theorem Run.inside (run : Run careful c held) (member : (thread, b) ∈ held) :
    b < kCatalogIteratorCount := by
  induction run with
  | initial => cases member
  | get run sound returns ih =>
    obtain ⟨l, linked⟩ := run.wellLinked
    rcases mem_cons.mp member with same | before
    · rw [(Prod.mk.inj same).2, ← linked.mem_iff]
      exact (getCatalogIterator_free linked returns).1
    · exact ih before
  | release run holds returns ih => exact ih (mem_of_mem_erase member)
  | update run holds sound returns ih => exact ih member
  | advance currentIndex fileIndex run holds ih => exact ih member
  | age run inside returns ih => exact ih member
  | trash run returns ih => exact ih member

/-- A request that leaves the locks as they should be was sound. -/
theorem Owned.sound_of_get (owned : Owned c held)
    (linked : WellLinked c l) (returns : getCatalogIterator thread request c = some (b, c'))
    (disciplined : Disciplined c' ((thread, b) :: held)) : request.Sound c := by
  refine (getCatalogIterator_sound_iff linked returns).mpr
    ⟨(getCatalogIterator_free linked returns).2, ?_⟩
  funext x
  by_cases same : x = b
  · subst same
    rw [update_self]
    exact disciplined.locked thread x mem_cons_self
  rw [update_of_ne same]
  by_cases taken : ∃ t, (t, x) ∈ held
  · obtain ⟨t, member⟩ := taken
    rw [owned.locked t x member]
    exact disciplined.locked t x (mem_cons_of_mem _ member)
  rw [owned.unlocked x fun t member => taken ⟨t, member⟩]
  refine disciplined.unlocked x fun t member => ?_
  rcases mem_cons.mp member with equal | member
  · exact same (Prod.mk.inj equal).2
  · exact taken ⟨t, member⟩

/-- A long name that leaves one iterator in use with the buffer was sound. -/
theorem sound_of_update {btreeIterator : BTreeIterator}
    (linked : WellLinked c l) (inside : b < kCatalogIteratorCount)
    (returns : updateCatalogIterator thread btreeIterator b c = some c')
    (disciplined : Disciplined c' held) : SoundUpdate btreeIterator.nodeName b c := by
  intro needs short inUse x first
  obtain ⟨⟨l', linked'⟩, -, prepared⟩ := updateCatalogIterator_spec linked returns
  rw [if_pos ⟨needs, short⟩] at prepared
  by_contra wrong
  rw [not_or, not_not] at wrong
  obtain ⟨trashed, others⟩ := wrong
  push Not at others
  obtain ⟨y, member, live⟩ := others
  have other : y ≠ b := by
    rintro rfl
    have long := live.2
    rw [Long, short] at long
    cases long
  have untouched : c.mruList.find? (fun x => c.Long x) ≠ some y := by
    rw [first]
    rintro same
    cases same
    exact live.1 trashed
  have live_b : c'.LiveLong b := by
    rw [prepared b, if_pos rfl]
    exact inUse
  have live_y : c'.LiveLong y := by
    rw [prepared y, if_neg other]
    exact ⟨live, untouched⟩
  have inside' : b ∈ c'.mruList := by
    rw [linked'.mruList]
    exact linked'.mem_iff.mpr inside
  have member' := (linked.perm linked').mem_iff.mpr member
  exact other (disciplined.long y member' b inside' live_y live_b)

/-- In a run in which every request and every long name is sound, the discipline holds in every
state; and the first request or long name that is not sound breaks it. -/
theorem catalogIterators_disciplined (run : Run True c held) :
    Disciplined c held ∧
    (∀ thread request b c', getCatalogIterator thread request c = some (b, c') →
      (Disciplined c' ((thread, b) :: held) ↔ request.Sound c)) ∧
    ∀ thread btreeIterator b c', (thread, b) ∈ held →
      updateCatalogIterator thread btreeIterator b c = some c' →
        (Disciplined c' held ↔ SoundUpdate btreeIterator.nodeName b c) := by
  obtain ⟨l, linked⟩ := run.wellLinked
  refine ⟨run.disciplined, ?_, ?_⟩
  · intro thread request b c' returns
    exact ⟨run.owned.sound_of_get linked returns,
      fun sound => (Run.get run (fun _ => sound) returns).disciplined⟩
  · intro thread btreeIterator b c' member returns
    exact ⟨sound_of_update linked (run.inside member) returns,
      fun sound => (Run.update run member (fun _ => sound) returns).disciplined⟩

end Run

/-- A request for an entry of a folder of volume 5, which is an HFS Plus volume. -/
def exampleRequest (folderID : BitVec 32) (index : BitVec 16) : Request :=
  ⟨⟨5, true⟩, folderID, index, .kIterateAll⟩

theorem catalogIterators_disciplined_once :
    ∃ c, Run True c [(1, 15)] ∧ Disciplined c [(1, 15)] := by
  have sound : (exampleRequest 2 1).Sound initCatalogCache := by
    have nobody : ∀ x, ¬ (exampleRequest 2 1).Candidate initCatalogCache x := by
      intro x candidate
      have volume : (0 : BitVec 16) = 5 := candidate.1.1
      exact absurd volume (by decide)
    have none : initCatalogCache.mruList.find? (fun x => (exampleRequest 2 1).Candidate
        initCatalogCache x ∧ (exampleRequest 2 1).Near (initCatalogCache.iterators x)) = none := by
      decide
    rw [Request.Sound, none]
    intro x _ candidate
    exact absurd candidate (nobody x)
  have run : Run True _ [(1, 15)] :=
    .get .initial (fun _ => sound) (rfl : getCatalogIterator 1 (exampleRequest 2 1) _ = some _)
  exact ⟨_, run, (catalogIterators_disciplined run).1⟩

/-- The iterator for entry 1 is released at the beginning of the folder, and entry 5 gets it back
without its lock.  Three iterators are got; two of them get a long name, the second one from the
first, and then the two that are left go to the end; the last one starts over, gets a long name from
the first one once more, and shares the buffer with the second. -/
theorem catalogIterators_break :
    (∃ c, Run False c [(1, 15)] ∧ c.lock 15 = none) ∧
    ∃ c held, Run False c held ∧ c.LiveLong 13 ∧ c.LiveLong 14 := by
  constructor
  · have first : Run False _ [(1, 15)] :=
      .get .initial nofun (rfl : getCatalogIterator 1 (exampleRequest 2 1) _ = some _)
    have released : Run False _ [] := .release first mem_cons_self rfl
    have second : Run False _ [(1, 15)] :=
      .get released nofun (rfl : getCatalogIterator 1 (exampleRequest 2 5) _ = some _)
    exact ⟨_, second, rfl⟩
  · let name : BTreeIterator := ⟨0, 0, 2, List.replicate 64 97⟩
    have first : Run False _ [(1, 15)] :=
      .get .initial nofun (rfl : getCatalogIterator 1 (exampleRequest 10 1) _ = some _)
    have second : Run False _ [(1, 14), (1, 15)] :=
      .get first nofun (rfl : getCatalogIterator 1 (exampleRequest 11 1) _ = some _)
    have third : Run False _ [(1, 13), (1, 14), (1, 15)] :=
      .get second nofun (rfl : getCatalogIterator 1 (exampleRequest 12 1) _ = some _)
    have long : Run False _ [(1, 13), (1, 14), (1, 15)] :=
      .update third (show (1, 15) ∈ _ by decide) nofun
        (rfl : updateCatalogIterator 1 name 15 _ = some _)
    have free : Run False _ [(1, 13), (1, 14)] :=
      .release long (show (1, 15) ∈ _ by decide) rfl
    have taken : Run False _ [(1, 13), (1, 14)] :=
      .update free (show (1, 14) ∈ _ by decide) nofun
        (rfl : updateCatalogIterator 1 name 14 _ = some _)
    have aged : Run False _ [(1, 13), (1, 14)] :=
      .age taken (by decide) (rfl : ageCatalogIterator 14 _ = some _)
    have aged' : Run False _ [(1, 13), (1, 14)] :=
      .age aged (by decide) (rfl : ageCatalogIterator 13 _ = some _)
    have free' : Run False _ [(1, 14)] := .release aged' (show (1, 13) ∈ _ by decide) rfl
    have again : Run False _ [(1, 13), (1, 14)] :=
      .get free' nofun (rfl : getCatalogIterator 1 (exampleRequest 13 1) _ = some _)
    have shared : Run False _ [(1, 13), (1, 14)] :=
      .update again (show (1, 13) ∈ _ by decide) nofun
        (rfl : updateCatalogIterator 1 name 13 _ = some _)
    exact ⟨_, _, shared, ⟨by decide, rfl⟩, by decide, rfl⟩

end Darwin.Hfs.CatalogIterators
