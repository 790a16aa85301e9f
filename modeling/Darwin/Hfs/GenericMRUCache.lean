import Darwin.Lib.Lru
import Darwin.Lib.MruList

/-!
# The generic MRU cache

`GenericMRUCache.c` keeps the nodes of a B-tree, under their numbers, in blocks that are linked in
the order of their last use.  A search follows that order and stops at the first block that is not
in use, so the blocks in use have to come first.

## Main results

* `getMRUCacheBlock_exact` - which keys a search finds, and what for, after any calls
-/

namespace Darwin.Hfs.GenericMRUCache

open List
open Function (update update_of_ne update_self)
open Darwin.Lib

/-! ## The cache -/

/-- The key of a block that is not in use. -/
def kInvalidMRUCacheKey : BitVec 32 := -1

/-- The cache with its blocks, which lie behind each other: a block is known by its distance from
the first.  In `order`, `mru` and `nextMRU` are `first` and `next`, `lru` and `nextLRU` are `last`
and `prev`.  `D` is what a buffer holds. -/
structure Cache (D : Type) where
  numCacheBlocks : BitVec 32
  order : Ends ℤ
  key : ℤ → BitVec 32
  buffer : ℤ → D

section Code

variable {D : Type}

/-- `NewPtrSysClear`: all is zero. -/
def cleared (blank : D) (numCacheBlocks : BitVec 32) : Cache D where
  numCacheBlocks
  order := ⟨none, none, fun _ => none, fun _ => none⟩
  key _ := 0
  buffer _ := blank

def Cache.setKey (c : Cache D) (block : ℤ) (key : BitVec 32) : Cache D :=
  { c with key := update c.key block key }

/-- The first loop of `InitMRUCache`, for the `left` blocks from `cacheBlock` on. -/
def linkMRU : ℕ → ℤ → Cache D → Cache D
  | 0, _, c => c
  | left + 1, cacheBlock, c =>
    let c := c.setKey cacheBlock kInvalidMRUCacheKey
    let c := { c with order := c.order.setNext (some cacheBlock) (some (cacheBlock + 1)) }
    linkMRU left (cacheBlock + 1) c

/-- The second loop of `InitMRUCache`, backwards from `cacheBlock`. -/
def linkLRU : ℕ → ℤ → Cache D → Cache D
  | 0, _, c => c
  | left + 1, cacheBlock, c =>
    let c := { c with order := c.order.setPrev (some cacheBlock) (some (cacheBlock - 1)) }
    linkLRU left (cacheBlock - 1) c

/-- `InitMRUCache` when there is memory.  `lastBuffer` is a short. -/
def initMRUCache (blank : D) (numCacheBlocks : BitVec 32) : Cache D :=
  let c := cleared blank numCacheBlocks
  let lastBuffer : ℤ := ((numCacheBlocks - 1).setWidth 16).toInt
  let c := { c with order := { c.order with last := some lastBuffer } }
  let c := { c with order := c.order.setNext (some lastBuffer) none }
  let c := { c with order := { c.order with first := some 0 } }
  let c := { c with order := c.order.setPrev (some 0) none }
  let c := linkMRU lastBuffer.toNat 0 c
  let c := c.setKey lastBuffer kInvalidMRUCacheKey
  linkLRU lastBuffer.toNat lastBuffer c

/-- `InsertAsMRU`. -/
def insertAsMRU (c : Cache D) (cacheBlock : ℤ) : Option (Cache D) :=
  (c.order.toFront cacheBlock).map fun order => { c with order }

/-- `InsertAsLRU`. -/
def insertAsLRU (c : Cache D) (cacheBlock : ℤ) : Option (Cache D) :=
  (c.order.toBack cacheBlock).map fun order => { c with order }

/-- The loop of `TrashMRUCache`.  The loops go round once for each block of a well-formed list; one
that is still going after `fuel` rounds does not return. -/
def trashLoop : ℕ → Option ℤ → Cache D → Option (Cache D)
  | _, none, c => some c
  | 0, some _, _ => none
  | fuel + 1, some cacheBlock, c =>
    let c := c.setKey cacheBlock kInvalidMRUCacheKey
    trashLoop fuel (c.order.next cacheBlock) c

/-- `TrashMRUCache`. -/
def trashMRUCache (c : Cache D) : Option (Cache D) :=
  trashLoop c.numCacheBlocks.toNat c.order.first c

/-- The loop of `GetMRUCacheBlock`: the block of the key, if there is one. -/
def searchLoop (c : Cache D) (key : BitVec 32) : ℕ → Option ℤ → Option (Option ℤ)
  | _, none => some none
  | 0, some _ => none
  | fuel + 1, some cacheBlock =>
    if c.key cacheBlock ≠ kInvalidMRUCacheKey then
      if c.key cacheBlock = key then some (some cacheBlock)
      else searchLoop c key fuel (c.order.next cacheBlock)
    else some none

/-- `GetMRUCacheBlock`: the block whose buffer is returned, or `none` for `errNotInCache`. -/
def getMRUCacheBlock (c : Cache D) (key : BitVec 32) : Option (Option ℤ × Cache D) := do
  match ← searchLoop c key c.numCacheBlocks.toNat c.order.first with
  | some cacheBlock => some (some cacheBlock, ← insertAsMRU c cacheBlock)
  | none => some (none, c)

/-- `InvalidateMRUCacheBlock` of the buffer of a block. -/
def invalidateMRUCacheBlock (c : Cache D) (cacheBlock : ℤ) : Option (Cache D) :=
  insertAsLRU (c.setKey cacheBlock kInvalidMRUCacheKey) cacheBlock

/-- `InsertMRUCacheBlock`.  All of the buffer is copied, as a word or by `BlockMoveData`. -/
def insertMRUCacheBlock (c : Cache D) (key : BitVec 32) (buffer : D) : Option (Cache D) := do
  let (found, c) ← getMRUCacheBlock c key
  let cacheBlock ← match found with
    | none => c.order.last
    | some cacheBlock => some cacheBlock
  let c := { c with buffer := update c.buffer cacheBlock buffer }
  let c ← insertAsMRU c cacheBlock
  some (c.setKey cacheBlock key)

end Code

/-! ## Runs -/

section Run

variable {D : Type}

/-- The states of a cache with `n` blocks, with what happened so far. -/
inductive Run (blank : D) (n : BitVec 32) : Cache D → List (Lru.Event (BitVec 32) D) → Prop
  | initial : Run blank n (initMRUCache blank n) []
  | insert {c c' h key buffer} (run : Run blank n c h) (valid : key ≠ kInvalidMRUCacheKey)
      (returns : insertMRUCacheBlock c key buffer = some c') :
      Run blank n c' (h ++ [.inserted key buffer])
  | found {c c' h key block} (run : Run blank n c h) (valid : key ≠ kInvalidMRUCacheKey)
      (returns : getMRUCacheBlock c key = some (some block, c')) :
      Run blank n c' (h ++ [.found key])
  | missed {c c' h key} (run : Run blank n c h) (valid : key ≠ kInvalidMRUCacheKey)
      (returns : getMRUCacheBlock c key = some (none, c')) : Run blank n c' h
  | invalidate {c c' h} {block : ℤ} (run : Run blank n c h) (mem : 0 ≤ block ∧ block < n.toNat)
      (valid : c.key block ≠ kInvalidMRUCacheKey)
      (returns : invalidateMRUCacheBlock c block = some c') :
      Run blank n c' (h ++ [.dropped (c.key block)])
  | invalidateAgain {c c' h} {block : ℤ} (run : Run blank n c h)
      (mem : 0 ≤ block ∧ block < n.toNat)
      (invalid : c.key block = kInvalidMRUCacheKey)
      (returns : invalidateMRUCacheBlock c block = some c') : Run blank n c' h
  | trash {c c' h} (run : Run blank n c h) (returns : trashMRUCache c = some c') :
      Run blank n c' (h ++ [.cleared])

end Run

/-! ## The invariant -/

section Invariant

variable {D : Type} {c c' : Cache D} {used free p l : List ℤ}
  {b : ℤ} {key : BitVec 32} {d : D} {fuel : ℕ}

/-- What a block holds. -/
def Cache.entry (c : Cache D) (b : ℤ) : BitVec 32 × D := (c.key b, c.buffer b)

/-- The blocks in the order of their last use: first those in use, each for a key of its own, then
the others. -/
structure Ordered (c : Cache D) (used free : List ℤ) : Prop where
  holds : c.order.Holds (used ++ free)
  valid : ∀ b ∈ used, c.key b ≠ kInvalidMRUCacheKey
  invalid : ∀ b ∈ free, c.key b = kInvalidMRUCacheKey
  keys : (used.map c.key).Nodup
  blocks : ∀ b, b ∈ used ++ free ↔ 0 ≤ b ∧ b < c.numCacheBlocks.toNat

variable (ordered : Ordered c used free)

include ordered

theorem Ordered.nodup : (used ++ free).Nodup := ordered.holds.nodup

theorem Ordered.length : (used ++ free).length = c.numCacheBlocks.toNat := by
  have perm : (used ++ free).Perm ((List.range c.numCacheBlocks.toNat).map Int.ofNat) := by
    refine (perm_ext_iff_of_nodup ordered.nodup ?_).mpr ?_
    · exact nodup_range.map fun _ _ => Int.ofNat.inj
    intro b
    rw [ordered.blocks, mem_map]
    constructor
    · intro mem
      exact ⟨b.toNat, mem_range.mpr (by omega), Int.toNat_of_nonneg mem.1⟩
    · rintro ⟨i, mem, rfl⟩
      rw [mem_range] at mem
      exact ⟨Int.natCast_nonneg i, Int.ofNat_lt.mpr mem⟩
  rw [perm.length_eq, length_map, length_range]

/-- Taking a block out of the order. -/
theorem Ordered.erase (b : ℤ) : (used ++ free).erase b = used.erase b ++ free.erase b := by
  by_cases mem : b ∈ used
  · have apart : b ∉ free := fun member =>
      (nodup_append.mp ordered.nodup).2.2 b mem b member rfl
    rw [erase_append_left _ mem, erase_of_not_mem apart]
  · rw [erase_append_right _ mem, erase_of_not_mem mem]

/-- The other blocks in use have other keys. -/
theorem Ordered.erase_eq_filter (mem : b ∈ used) :
    used.erase b = used.filter (fun x => c.key x ≠ c.key b) := by
  rw [(nodup_append.mp ordered.nodup).1.erase_eq_filter]
  refine filter_congr fun x member => ?_
  have same : x = b ↔ c.key x = c.key b :=
    ⟨congrArg _, inj_on_of_nodup_map ordered.keys member mem⟩
  rw [Bool.eq_iff_iff, bne_iff_ne, decide_eq_true_iff]
  exact not_congr same

theorem Ordered.map_erase (mem : b ∈ used) :
    (used.erase b).map c.entry = (used.map c.entry).filter (·.1 ≠ c.key b) := by
  rw [ordered.erase_eq_filter mem, filter_map]
  rfl

omit ordered

/-! ### Searching -/

theorem searchLoop_eq (holds : c.order.Holds (p ++ (used ++ free)))
    (valid : ∀ b ∈ used, c.key b ≠ kInvalidMRUCacheKey)
    (invalid : ∀ b ∈ free, c.key b = kInvalidMRUCacheKey)
    (enough : (used ++ free).length ≤ fuel) :
    searchLoop c key fuel (used ++ free).head? = some (used.find? (c.key · = key)) := by
  induction used generalizing p fuel with
  | nil =>
    cases free with
    | nil =>
      cases fuel <;> rfl
    | cons b free =>
      obtain ⟨fuel, rfl⟩ := Nat.exists_eq_succ_of_ne_zero (show fuel ≠ 0 by
        simp only [nil_append, length_cons] at enough
        omega)
      rw [nil_append, List.head?_cons, searchLoop, if_neg (not_not.mpr (invalid b mem_cons_self))]
      rfl
  | cons b used ih =>
    rw [cons_append, length_cons] at enough
    obtain ⟨fuel, rfl⟩ := Nat.exists_eq_succ_of_ne_zero (show fuel ≠ 0 by omega)
    rw [cons_append, List.head?_cons, searchLoop, if_pos (valid b mem_cons_self)]
    by_cases same : c.key b = key
    · rw [if_pos same, List.find?_cons_of_pos (by simpa using same)]
    rw [cons_append] at holds
    rw [if_neg same, List.find?_cons_of_neg (by simpa using same), holds.next_eq]
    refine ih (p := p ++ [b]) ?_ (fun x mem => valid x (mem_cons_of_mem _ mem)) (by omega)
    rwa [append_assoc]

variable (ordered : Ordered c used free)

include ordered

/-- The entry with a key, if a block is in use for it. -/
theorem Ordered.search (key : BitVec 32) :
    searchLoop c key c.numCacheBlocks.toNat c.order.first =
      some (used.find? (c.key · = key)) := by
  rw [ordered.holds.first_eq]
  refine searchLoop_eq (p := []) ordered.holds ordered.valid ordered.invalid ?_
  exact ordered.length.le

/-! ### Moves -/

theorem Ordered.toMRU (mem : b ∈ used ++ free) :
    insertAsMRU c b = some { c with order := c.order.moveToFront b } := by
  rw [insertAsMRU, ordered.holds.toFront mem]
  rfl

/-- A block that moves to the front gets a key that no other block has. -/
theorem Ordered.place (mem : b ∈ used ++ free)
    (valid : key ≠ kInvalidMRUCacheKey) (fresh : key ∉ (used.erase b).map c.key) :
    Ordered { c with
      order := c.order.moveToFront b
      buffer := update c.buffer b d
      key := update c.key b key } (b :: used.erase b) (free.erase b) := by
  have nodup := ordered.nodup
  have used_ne : ∀ x ∈ used.erase b, x ≠ b := by
    rintro x member rfl
    exact (nodup_append.mp nodup).1.not_mem_erase member
  have free_ne : ∀ x ∈ free.erase b, x ≠ b := by
    rintro x member rfl
    exact (nodup_append.mp nodup).2.1.not_mem_erase member
  have keys : (used.erase b).map (update c.key b key) = (used.erase b).map c.key :=
    map_congr_left fun x member => update_of_ne (used_ne x member) ..
  constructor
  case holds =>
    rw [cons_append, ← ordered.erase]
    exact ordered.holds.moveToFront mem
  case valid =>
    intro x member
    dsimp only
    rcases mem_cons.mp member with rfl | member
    · rw [update_self]
      exact valid
    · rw [update_of_ne (used_ne x member)]
      exact ordered.valid x (mem_of_mem_erase member)
  case invalid =>
    intro x member
    dsimp only
    rw [update_of_ne (free_ne x member)]
    exact ordered.invalid x (mem_of_mem_erase member)
  case keys =>
    dsimp only
    rw [map_cons, update_self, keys, nodup_cons]
    exact ⟨fresh, ordered.keys.sublist (erase_sublist.map _)⟩
  case blocks =>
    intro x
    rw [← ordered.blocks, cons_append, ← ordered.erase]
    exact (perm_cons_erase mem).mem_iff.symm

/-- A block that is not in use any more moves to the back. -/
theorem Ordered.discard (mem : b ∈ used ++ free) :
    Ordered { c with
      order := c.order.moveToBack b
      key := update c.key b kInvalidMRUCacheKey }
      (used.erase b) (free.erase b ++ [b]) := by
  have nodup := ordered.nodup
  have used_ne : ∀ x ∈ used.erase b, x ≠ b := by
    rintro x member rfl
    exact (nodup_append.mp nodup).1.not_mem_erase member
  have keys : (used.erase b).map (update c.key b kInvalidMRUCacheKey) =
      (used.erase b).map c.key :=
    map_congr_left fun x member => update_of_ne (used_ne x member) ..
  constructor
  case holds =>
    rw [← append_assoc, ← ordered.erase]
    exact ordered.holds.moveToBack mem
  case valid =>
    intro x member
    dsimp only
    rw [update_of_ne (used_ne x member)]
    exact ordered.valid x (mem_of_mem_erase member)
  case invalid =>
    intro x member
    dsimp only
    by_cases same : x = b
    · rw [same, update_self]
    rw [update_of_ne same]
    rcases mem_append.mp member with member | member
    · exact ordered.invalid x (mem_of_mem_erase member)
    · exact absurd (mem_singleton.mp member) same
  case keys =>
    rw [keys]
    exact ordered.keys.sublist (erase_sublist.map _)
  case blocks =>
    intro x
    rw [← ordered.blocks, ← append_assoc, ← ordered.erase]
    exact (perm_append_singleton b _).mem_iff.trans (perm_cons_erase mem).mem_iff.symm

/-! ### Calls -/

/-- A search either finds the block of the key, which moves to the front, or there is none. -/
theorem Ordered.get (key : BitVec 32) :
    (∃ b ∈ used, c.key b = key ∧
      getMRUCacheBlock c key = some (some b, { c with order := c.order.moveToFront b })) ∨
    (∀ b ∈ used, c.key b ≠ key) ∧ getMRUCacheBlock c key = some (none, c) := by
  rw [getMRUCacheBlock, ordered.search]
  cases first : used.find? (c.key · = key) with
  | none =>
    refine .inr ⟨?_, rfl⟩
    intro b mem same
    exact List.find?_eq_none.mp first b mem (by simpa using same)
  | some b =>
    have mem := mem_of_find?_eq_some first
    have same : c.key b = key := by simpa using List.find?_some first
    refine .inl ⟨b, mem, same, ?_⟩
    simp only [Option.bind_eq_bind, Option.bind_some, ordered.toMRU (mem_append_left _ mem)]

omit ordered

theorem insertAsMRU_first (first : c.order.first = some b) : insertAsMRU c b = some c := by
  rw [insertAsMRU, Ends.toFront, if_neg (not_not.mpr first)]
  rfl

/-- The entries after a search that finds its key. -/
theorem Ordered.found (ordered : Ordered c used free) (mem : b ∈ used) (n : ℕ) :
    Ordered { c with order := c.order.moveToFront b } (b :: used.erase b) free ∧
      (b :: used.erase b).map c.entry = Lru.step n (used.map c.entry) (.found (c.key b)) := by
  have member := mem_append_left free mem
  have apart : b ∉ free := fun member' =>
    (nodup_append.mp ordered.nodup).2.2 b mem b member' rfl
  have fresh : c.key b ∉ (used.erase b).map c.key := by
    rw [ordered.erase_eq_filter mem]
    simp
  constructor
  · have placed := ordered.place (d := c.buffer b) member (ordered.valid b mem) fresh
    rwa [Function.update_eq_self, Function.update_eq_self, erase_of_not_mem apart] at placed
  have fits : Lru.Fits (used.map c.entry).length (used.map c.entry) := by
    refine ⟨?_, le_rfl⟩
    rw [map_map]
    exact ordered.keys
  have entry : (c.key b, c.buffer b) ∈ used.map c.entry := mem_map_of_mem mem
  rw [Lru.step, fits.filter_eq entry, map_cons, ordered.map_erase mem]
  rfl

/-- The block that an insertion fills, and what the cache holds then. -/
theorem Ordered.insert (ordered : Ordered c used free) (room : 0 < c.numCacheBlocks.toNat)
    (key : BitVec 32) (d : D) :
    ∃ b ∈ used ++ free, key ∉ (used.erase b).map c.key ∧
      insertMRUCacheBlock c key d = some { c with
        order := c.order.moveToFront b
        buffer := update c.buffer b d
        key := update c.key b key } ∧
      (key, d) :: (used.erase b).map c.entry =
        Lru.step c.numCacheBlocks.toNat (used.map c.entry) (.inserted key d) := by
  have length := ordered.length
  rw [length_append] at length
  rcases ordered.get key with ⟨b, mem, same, found⟩ | ⟨absent, missed⟩
  · -- the block of the key is filled again
    have member := mem_append_left free mem
    refine ⟨b, member, ?_, ?_, ?_⟩
    · rw [ordered.erase_eq_filter mem, ← same]
      simp
    · rw [insertMRUCacheBlock, found]
      have first : (c.order.moveToFront b).first = some b :=
        (ordered.holds.moveToFront member).first_eq
      simp only [Option.bind_eq_bind, Option.bind_some]
      rw [insertAsMRU_first first]
      rfl
    · rw [Lru.step, ordered.map_erase mem, same, take_of_length_le]
      have shorter :
          ((used.map c.entry).filter (·.1 ≠ key)).length < (used.map c.entry).length := by
        rw [length_filter_lt_length_iff_exists]
        refine ⟨c.entry b, mem_map_of_mem mem, ?_⟩
        simp [Cache.entry, same]
      rw [length_map] at shorter
      rw [length_cons]
      omega
  · -- the block at the end is taken
    have keys : ∀ entry ∈ used.map c.entry, entry.1 ≠ key := by
      intro entry member
      obtain ⟨b, mem, rfl⟩ := mem_map.mp member
      exact absent b mem
    have all : (used.map c.entry).filter (·.1 ≠ key) = used.map c.entry :=
      filter_eq_self.mpr fun entry member => by simpa using keys entry member
    obtain ⟨b, final⟩ : ∃ b, (used ++ free).getLast? = some b := by
      cases blocks : (used ++ free).getLast? with
      | none =>
        rw [← length_append, List.getLast?_eq_none_iff.mp blocks] at length
        exact absurd length room.ne
      | some b => exact ⟨b, rfl⟩
    have member := mem_of_getLast? final
    refine ⟨b, member, ?_, ?_, ?_⟩
    · intro mem
      obtain ⟨x, mem, same⟩ := mem_map.mp mem
      exact absent x (mem_of_mem_erase mem) same
    · have moved : insertAsMRU { c with buffer := update c.buffer b d } b =
          some { c with
            order := c.order.moveToFront b
            buffer := update c.buffer b d } := by
        rw [insertAsMRU, ordered.holds.toFront member]
        rfl
      rw [insertMRUCacheBlock, missed]
      simp only [Option.bind_eq_bind, Option.bind_some, ordered.holds.last_eq, final, moved]
      rfl
    · rw [Lru.step, all]
      have nodup := ordered.nodup
      rcases eq_nil_or_concat free with rfl | ⟨rest, x, rfl⟩
      · -- all blocks are in use, and the last one gives up its key
        rcases eq_nil_or_concat used with rfl | ⟨others, x, rfl⟩
        · simp at final
        rw [append_nil, concat_eq_append] at final nodup
        rw [concat_eq_append, length_append] at length
        obtain rfl : x = b := by simpa using final
        have fresh : x ∉ others := fun mem =>
          (nodup_append.mp nodup).2.2 x mem x mem_cons_self rfl
        rw [concat_eq_append, erase_append_right _ fresh, erase_cons_head,
          append_nil, map_append, ← cons_append]
        refine (take_left' ?_).symm
        rw [length_cons, length_map, ← length]
        rfl
      · rw [concat_eq_append, ← append_assoc] at final nodup
        rw [concat_eq_append, length_append, length_singleton] at length
        obtain rfl : x = b := by simpa using final
        have fresh : x ∉ used := fun mem =>
          (nodup_append.mp nodup).2.2 x (mem_append_left _ mem) x mem_cons_self rfl
        rw [erase_of_not_mem fresh, take_of_length_le]
        rw [length_cons, length_map]
        omega

/-- Invalidating a block in use takes its entry out. -/
theorem Ordered.invalidate (ordered : Ordered c used free) (mem : b ∈ used ++ free) :
    invalidateMRUCacheBlock c b = some { c with
      order := c.order.moveToBack b
      key := update c.key b kInvalidMRUCacheKey } := by
  rw [invalidateMRUCacheBlock, insertAsLRU, Cache.setKey, ordered.holds.toBack mem]
  rfl

theorem trashLoop_eq (holds : c.order.Holds (p ++ l)) (enough : l.length ≤ fuel) :
    trashLoop fuel l.head? c =
      some { c with key := fun b => if b ∈ l then kInvalidMRUCacheKey else c.key b } := by
  induction l generalizing c p fuel with
  | nil =>
    cases fuel <;> simp [trashLoop]
  | cons b l ih =>
    rw [length_cons] at enough
    obtain ⟨fuel, rfl⟩ := Nat.exists_eq_succ_of_ne_zero (show fuel ≠ 0 by omega)
    have rest : (c.setKey b kInvalidMRUCacheKey).order.Holds ((p ++ [b]) ++ l) := by
      rw [append_assoc]
      exact holds
    rw [List.head?_cons, trashLoop, holds.next_eq (s := (c.setKey b kInvalidMRUCacheKey).order),
      ih rest (by omega)]
    congr 2
    funext x
    by_cases same : x = b
    · simp [same, Cache.setKey]
    · simp [same, Cache.setKey]

/-! ### The first state -/

theorem linkMRU_eq (left : ℕ) (b : ℤ) (c : Cache D) :
    linkMRU left b c = { c with
      order := { c.order with
        next := fun x => if b ≤ x ∧ x < b + left then some (x + 1) else c.order.next x }
      key := fun x => if b ≤ x ∧ x < b + left then kInvalidMRUCacheKey else c.key x } := by
  induction left generalizing b c with
  | zero =>
    have none (x : ℤ) : ¬ (b ≤ x ∧ x < b + (0 : ℕ)) := by omega
    simp only [linkMRU, none, if_false]
  | succ left ih =>
    have extend {V : Type} (old : ℤ → V) (new : ℤ → V) :
        (fun x => if b + 1 ≤ x ∧ x < b + 1 + left then new x
          else update old b (new b) x) =
        fun x => if b ≤ x ∧ x < b + (left + 1 : ℕ) then new x else old x := by
      funext x
      by_cases same : x = b
      · subst same
        rw [if_neg (by omega), if_pos (by omega), update_self]
      · have within : b + 1 ≤ x ∧ x < b + 1 + left ↔ b ≤ x ∧ x < b + (left + 1 : ℕ) := by omega
        simp only [update_of_ne same, within]
    have key := extend c.key fun _ => kInvalidMRUCacheKey
    have next := extend c.order.next fun x => some (x + 1)
    rw [linkMRU, ih]
    simp only [Cache.setKey, Ends.setNext, key, next]

theorem linkLRU_eq (left : ℕ) (b : ℤ) (c : Cache D) :
    linkLRU left b c = { c with
      order := { c.order with
        prev := fun x => if b - left < x ∧ x ≤ b then some (x - 1) else c.order.prev x } } := by
  induction left generalizing b c with
  | zero =>
    have none (x : ℤ) : ¬ (b - (0 : ℕ) < x ∧ x ≤ b) := by omega
    simp only [linkLRU, none, if_false]
  | succ left ih =>
    have extend : (fun x => if b - 1 - left < x ∧ x ≤ b - 1 then some (x - 1)
          else update c.order.prev b (some (b - 1)) x) =
        fun x => if b - (left + 1 : ℕ) < x ∧ x ≤ b then some (x - 1) else c.order.prev x := by
      funext x
      by_cases same : x = b
      · subst same
        rw [if_neg (by omega), if_pos (by omega), update_self]
      · have within : b - 1 - left < x ∧ x ≤ b - 1 ↔ b - (left + 1 : ℕ) < x ∧ x ≤ b := by omega
        simp only [update_of_ne same, within]
    rw [linkLRU, ih]
    simp only [Ends.setPrev, extend]

/-- The number of the last block is a short, which has room for it up to 32768 blocks. -/
theorem lastBuffer_eq {n : BitVec 32} (room : 0 < n.toNat) (small : n.toNat ≤ 32768) :
    ((n - 1).setWidth 16).toInt = n.toNat - 1 := by
  have number : (n - 1).toNat = n.toNat - 1 := by bv_omega
  have short : ((n - 1).setWidth 16).toNat = n.toNat - 1 := by
    rw [BitVec.toNat_setWidth, number]
    omega
  rw [BitVec.toInt_eq_toNat_of_lt (by omega), short]
  omega

/-- At first no block is in use. -/
theorem ordered_init (blank : D) {n : BitVec 32} (room : 0 < n.toNat) (small : n.toNat ≤ 32768) :
    Ordered (initMRUCache blank n) [] ((List.range n.toNat).map Int.ofNat) := by
  obtain ⟨m, size⟩ := Nat.exists_eq_succ_of_ne_zero room.ne'
  have last : ((n - 1).setWidth 16).toInt = m := by
    rw [lastBuffer_eq room small, size]
    omega
  have blocks (i : ℕ) : ((List.range n.toNat).map Int.ofNat)[i]? =
      if i < m + 1 then some (i : ℤ) else none := by
    rw [size]
    by_cases mem : i < m + 1
    · simp [mem]
    · simp [mem]
  have mem {i : ℕ} {x : ℤ} (here : ((List.range n.toNat).map Int.ofNat)[i]? = some x) :
      i < m + 1 ∧ x = i := by
    rw [blocks] at here
    split_ifs at here with mem
    exact ⟨mem, (Option.some.inj here).symm⟩
  rw [initMRUCache, last, Int.toNat_natCast, linkMRU_eq, linkLRU_eq]
  constructor
  case holds =>
    rw [nil_append]
    refine Ends.holds_of_getElem? ?_ ?_ ?_ ?_ ?_ ?_
    · exact nodup_range.map fun _ _ => Int.ofNat.inj
    · rw [blocks, if_pos (by omega)]
      rfl
    · rw [size, range_succ, map_append, map_singleton, List.getLast?_concat]
      rfl
    · intro i x here
      obtain ⟨mem, rfl⟩ := mem here
      rw [blocks]
      simp [Cache.setKey, Ends.setNext, Ends.setPrev, cleared]
    · intro x here
      obtain ⟨-, rfl⟩ := mem here
      simp [Cache.setKey, Ends.setNext, Ends.setPrev]
    intro i x here
    obtain ⟨within, rfl⟩ := mem here
    rw [blocks, if_pos (by omega)]
    simp [Cache.setKey, Ends.setNext, Ends.setPrev]
    omega
  case valid =>
    intro b mem
    cases mem
  case invalid =>
    intro b member
    obtain ⟨i, within, rfl⟩ := mem_map.mp member
    rw [mem_range, size] at within
    rcases Nat.lt_succ_iff_lt_or_eq.mp within with before | rfl
    · have differs : (i : ℤ) ≠ m := by omega
      simp [Cache.setKey, before, differs]
    · simp [Cache.setKey]
  case keys => exact nodup_nil
  case blocks =>
    intro b
    rw [nil_append, mem_map]
    show _ ↔ 0 ≤ b ∧ b < n.toNat
    constructor
    · rintro ⟨i, within, rfl⟩
      rw [mem_range] at within
      exact ⟨Int.natCast_nonneg i, Int.ofNat_lt.mpr within⟩
    · intro within
      exact ⟨b.toNat, mem_range.mpr (by omega), Int.toNat_of_nonneg within.1⟩

end Invariant

/-! ## Every run -/

section Refinement

variable {D : Type} {c c' : Cache D} {l : List (BitVec 32 × D)} {b : ℤ} {key : BitVec 32} {d : D}

/-- The blocks in use hold the entries of `l`, in the order of their last use. -/
def Reflects (c : Cache D) (l : List (BitVec 32 × D)) : Prop :=
  ∃ used free, Ordered c used free ∧ used.map c.entry = l

theorem Reflects.get (reflects : Reflects c l) (n : ℕ) (key : BitVec 32) :
    (∃ b c', getMRUCacheBlock c key = some (some b, c') ∧ (key, c'.buffer b) ∈ l ∧
      c'.numCacheBlocks = c.numCacheBlocks ∧ Reflects c' (Lru.step n l (.found key))) ∨
    key ∉ l.map Prod.fst ∧ getMRUCacheBlock c key = some (none, c) := by
  obtain ⟨used, free, ordered, rfl⟩ := reflects
  rcases ordered.get key with ⟨b, mem, rfl, found⟩ | ⟨absent, missed⟩
  · obtain ⟨moved, entries⟩ := ordered.found mem n
    exact .inl ⟨b, _, found, mem_map_of_mem mem, rfl, _, _, moved, entries⟩
  refine .inr ⟨?_, missed⟩
  rw [map_map]
  intro member
  obtain ⟨b, mem, same⟩ := mem_map.mp member
  exact absent b mem same

theorem Reflects.insert (reflects : Reflects c l) (room : 0 < c.numCacheBlocks.toNat)
    (valid : key ≠ kInvalidMRUCacheKey) (d : D) :
    ∃ c', insertMRUCacheBlock c key d = some c' ∧ c'.numCacheBlocks = c.numCacheBlocks ∧
      Reflects c' (Lru.step c.numCacheBlocks.toNat l (.inserted key d)) := by
  obtain ⟨used, free, ordered, rfl⟩ := reflects
  obtain ⟨b, mem, fresh, returns, entries⟩ := ordered.insert room key d
  refine ⟨_, returns, rfl, _, _, ordered.place (d := d) mem valid fresh, ?_⟩
  have others : ∀ x ∈ used.erase b, x ≠ b := by
    rintro x member rfl
    exact (nodup_append.mp ordered.nodup).1.not_mem_erase member
  rw [← entries, map_cons]
  congr 1
  · simp [Cache.entry]
  · refine map_congr_left fun x member => ?_
    simp [Cache.entry, others x member]

theorem Reflects.invalidate (reflects : Reflects c l) (n : ℕ)
    (mem : 0 ≤ b ∧ b < c.numCacheBlocks.toNat) :
    ∃ c', invalidateMRUCacheBlock c b = some c' ∧ c'.numCacheBlocks = c.numCacheBlocks ∧
      (c.key b ≠ kInvalidMRUCacheKey → Reflects c' (Lru.step n l (.dropped (c.key b)))) ∧
      (c.key b = kInvalidMRUCacheKey → Reflects c' l) := by
  obtain ⟨used, free, ordered, rfl⟩ := reflects
  have member := (ordered.blocks b).mpr mem
  have discarded := ordered.discard member
  have others : ∀ x ∈ used.erase b, x ≠ b := by
    rintro x member rfl
    exact (nodup_append.mp ordered.nodup).1.not_mem_erase member
  have entries : (used.erase b).map (fun x => (update c.key b kInvalidMRUCacheKey x,
      c.buffer x)) = (used.erase b).map c.entry :=
    map_congr_left fun x member => by simp [Cache.entry, others x member]
  refine ⟨_, ordered.invalidate member, rfl, ?_, ?_⟩
  · intro valid
    have used_mem : b ∈ used := by
      rcases mem_append.mp member with member | member
      · exact member
      · exact absurd (ordered.invalid b member) valid
    exact ⟨_, _, discarded, entries.trans (ordered.map_erase used_mem)⟩
  · intro invalid
    have fresh : b ∉ used := fun member => ordered.valid b member invalid
    refine ⟨_, _, discarded, entries.trans ?_⟩
    rw [erase_of_not_mem fresh]

theorem Reflects.trash (reflects : Reflects c l) :
    ∃ c', trashMRUCache c = some c' ∧ c'.numCacheBlocks = c.numCacheBlocks ∧ Reflects c' [] := by
  obtain ⟨used, free, ordered, rfl⟩ := reflects
  have returns : trashMRUCache c = some { c with
      key := fun b => if b ∈ used ++ free then kInvalidMRUCacheKey else c.key b } := by
    rw [trashMRUCache, ordered.holds.first_eq]
    exact trashLoop_eq (p := []) ordered.holds ordered.length.le
  refine ⟨_, returns, rfl, [], used ++ free, ?_, rfl⟩
  constructor
  case holds => exact ordered.holds
  case valid =>
    intro b mem
    cases mem
  case invalid =>
    intro b mem
    exact if_pos mem
  case keys => exact nodup_nil
  case blocks => exact ordered.blocks

end Refinement

section Exact

variable {D : Type} {blank : D} {n : BitVec 32} {c : Cache D}
  {h : List (Lru.Event (BitVec 32) D)}

/-- In every state the blocks in use hold what the least recently used map holds after the same
events. -/
theorem Run.reflects (room : 0 < n.toNat) (small : n.toNat ≤ 32768) (run : Run blank n c h) :
    c.numCacheBlocks = n ∧ Lru.Honest n.toNat h ∧ Reflects c (Lru.contents n.toNat h) := by
  induction run with
  | initial =>
    refine ⟨?_, ?_, [], _, ordered_init blank room small, rfl⟩
    · rw [initMRUCache, linkMRU_eq, linkLRU_eq]
      rfl
    · intro h₁ k h₂ split
      simp at split
  | insert run valid returns ih =>
    obtain ⟨size, honest, reflects⟩ := ih
    obtain ⟨c', call, size', next⟩ := reflects.insert (size ▸ room) valid _
    cases call.symm.trans returns
    refine ⟨size'.trans size, Lru.honest_concat.mpr ⟨honest, by simp⟩, ?_⟩
    rw [Lru.contents_concat]
    exact size ▸ next
  | found run valid returns ih =>
    obtain ⟨size, honest, reflects⟩ := ih
    rcases reflects.get n.toNat _ with ⟨b, c', call, mem, size', next⟩ | ⟨-, call⟩
    · obtain ⟨-, rfl⟩ := Prod.mk.inj (Option.some.inj (call.symm.trans returns))
      refine ⟨size'.trans size, Lru.honest_concat.mpr ⟨honest, ?_⟩, ?_⟩
      · rintro j same
        obtain rfl := Lru.Event.found.inj same
        exact mem_map_of_mem mem
      · rw [Lru.contents_concat]
        exact next
    · cases call.symm.trans returns
  | missed run valid returns ih =>
    obtain ⟨size, honest, reflects⟩ := ih
    rcases reflects.get n.toNat _ with ⟨b, c', call, -⟩ | ⟨-, call⟩
    · cases call.symm.trans returns
    · obtain ⟨-, rfl⟩ := Prod.mk.inj (Option.some.inj (call.symm.trans returns))
      exact ⟨size, honest, reflects⟩
  | invalidate run mem valid returns ih =>
    obtain ⟨size, honest, reflects⟩ := ih
    obtain ⟨c', call, size', next, -⟩ := reflects.invalidate n.toNat (size ▸ mem)
    cases call.symm.trans returns
    refine ⟨size'.trans size, Lru.honest_concat.mpr ⟨honest, by simp⟩, ?_⟩
    rw [Lru.contents_concat]
    exact next valid
  | invalidateAgain run mem invalid returns ih =>
    obtain ⟨size, honest, reflects⟩ := ih
    obtain ⟨c', call, size', -, next⟩ := reflects.invalidate n.toNat (size ▸ mem)
    cases call.symm.trans returns
    exact ⟨size'.trans size, honest, next invalid⟩
  | trash run returns ih =>
    obtain ⟨size, honest, reflects⟩ := ih
    obtain ⟨c', call, size', next⟩ := reflects.trash
    cases call.symm.trans returns
    refine ⟨size'.trans size, Lru.honest_concat.mpr ⟨honest, by simp⟩, ?_⟩
    rw [Lru.contents_concat]
    exact next

/-- The cache is the least recently used map of `n` entries after the events of `h`, and no call
fails to return. -/
structure IsMap (n : BitVec 32) (c : Cache D) (h : List (Lru.Event (BitVec 32) D)) : Prop where
  get : ∀ key, ∃ found c', getMRUCacheBlock c key = some (found, c') ∧
    ∀ d, (∃ block, found = some block ∧ c'.buffer block = d) ↔ Lru.Kept n.toNat h key d
  ordered : ∃ used free, c.order.Holds (used ++ free) ∧
    (∀ b, b ∈ used ++ free ↔ 0 ≤ b ∧ b < n.toNat) ∧
    (∀ b ∈ used, c.key b ≠ kInvalidMRUCacheKey) ∧
    (∀ b ∈ free, c.key b = kInvalidMRUCacheKey) ∧ (used.map c.key).Nodup
  insert : ∀ key buffer, key ≠ kInvalidMRUCacheKey →
    ∃ c', insertMRUCacheBlock c key buffer = some c'
  invalidate : ∀ block : ℤ, 0 ≤ block ∧ block < n.toNat →
    ∃ c', invalidateMRUCacheBlock c block = some c'
  trash : ∃ c', trashMRUCache c = some c'

/-- After any calls a cache of up to 32768 blocks finds a key exactly when it was inserted and not
invalidated or trashed since, and at no time since its last use had `n` other keys been used that
were not invalidated again; it returns the buffer inserted last.  The blocks in use come first, each
for a key of its own. -/
theorem getMRUCacheBlock_exact (blank : D) (room : 0 < n.toNat) (small : n.toNat ≤ 32768)
    (run : Run blank n c h) : IsMap n c h := by
  obtain ⟨size, honest, reflects⟩ := run.reflects room small
  constructor
  case get =>
    intro key
    rcases reflects.get n.toNat key with ⟨b, c', call, mem, -, -⟩ | ⟨absent, call⟩
    · refine ⟨_, _, call, fun d => ?_⟩
      rw [← Lru.mem_contents_iff room honest]
      constructor
      · rintro ⟨block, same, rfl⟩
        exact Option.some.inj same ▸ mem
      · intro member
        have stored := Lru.stored_of_mem member
        exact ⟨b, rfl, (Lru.stored_of_mem mem).unique stored⟩
    · refine ⟨_, _, call, fun d => ?_⟩
      rw [← Lru.mem_contents_iff room honest]
      constructor
      · rintro ⟨block, nothing, -⟩
        cases nothing
      · intro member
        exact absurd (mem_map_of_mem member) absent
  case ordered =>
    obtain ⟨used, free, ordered, -⟩ := reflects
    have blocks := ordered.blocks
    rw [size] at blocks
    exact ⟨used, free, ordered.holds, blocks, ordered.valid, ordered.invalid, ordered.keys⟩
  case insert =>
    intro key buffer valid
    obtain ⟨c', call, -⟩ := reflects.insert (size ▸ room) valid buffer
    exact ⟨c', call⟩
  case invalidate =>
    intro block mem
    obtain ⟨c', call, -⟩ := reflects.invalidate n.toNat (size ▸ mem)
    exact ⟨c', call⟩
  case trash =>
    obtain ⟨c', call, -⟩ := reflects.trash
    exact ⟨c', call⟩

end Exact

/-- Two keys inserted. -/
theorem getMRUCacheBlock_exact_two :
    ∃ c, Run 0 2 c [.inserted 5 50, .inserted 6 60] ∧
      IsMap 2 c [.inserted 5 50, .inserted 6 60] := by
  have run : Run 0 2 _ [.inserted 5 50, .inserted 6 60] :=
    .insert (.insert .initial (by decide) rfl) (by decide) rfl
  exact ⟨_, run, getMRUCacheBlock_exact 0 (by decide) (by decide) run⟩

/-- Two other keys were used since key 1, but one of them was invalidated before the other came, and
the cache of two blocks still finds key 1; with 32769 blocks it finds a key nobody has inserted. -/
theorem getMRUCacheBlock_differs :
    (∃ c h, Run 0 2 c h ∧ (getMRUCacheBlock c 1).map Prod.fst = some (some 1) ∧
      ∀ recent, Lru.Since h 1 recent → ∃ s : Finset (BitVec 32), s.card = 2 ∧ 1 ∉ s ∧
        ∀ j ∈ s, ∃ e ∈ recent, e.Uses j) ∧
    (getMRUCacheBlock (initMRUCache 0 32769) 0).map Prod.fst = some (some 0) := by
  constructor
  · have both : Run 0 2 _ [.inserted 1 10, .inserted 2 20] :=
      .insert (.insert .initial (by decide) rfl) (by decide) rfl
    have found : Run 0 2 _ [.inserted 1 10, .inserted 2 20, .found 2] :=
      .found both (by decide) rfl
    have dropped : Run 0 2 _ [.inserted 1 10, .inserted 2 20, .found 2, .dropped 2] :=
      .invalidate found (show (0 : ℤ) ≤ 0 ∧ (0 : ℤ) < (2 : BitVec 32).toNat by decide)
        (by decide) rfl
    have third : Run 0 2 _
        [.inserted 1 10, .inserted 2 20, .found 2, .dropped 2, .inserted 3 30] :=
      .insert dropped (by decide) rfl
    refine ⟨_, _, third, by decide, ?_⟩
    have since : Lru.Since
        [.inserted (1 : BitVec 32) 10, .inserted 2 20, .found 2, .dropped 2, .inserted 3 30] 1
        [.inserted 2 20, .found 2, .dropped 2, .inserted 3 30] :=
      ⟨[], _, rfl, rfl, by simp [Lru.Event.Uses]⟩
    intro recent since'
    rw [since'.unique since]
    exact ⟨{2, 3}, by decide, by decide, by simp [Lru.Event.Uses]⟩
  · decide

end Darwin.Hfs.GenericMRUCache
