import Darwin.Vm.Fork.Basic
import Mathlib.Data.Nat.ModEq

/-!
# Copies of entries, and of windows of sharing maps

A copy of an entry lets the child see at every page what the parent sees: the two entries share an
object that both shadow before they write, or the child has the copy object of the parent's object,
or it has pages of its own.  The loop of `vm_map_copy` does this piece by piece, and clips the
child's entry as the sharing map is divided.

## Main results

* `vmMapCopyEntry_spec` - one entry
* `copyLoop_spec` - a window of a sharing map
-/

namespace Darwin.Vm.Map

open List Darwin.Lib Darwin.Vm.Object Option Cursor

/-! ## Maps during the fork -/

section Linked

variable {O : Type*} {map : VmMap O} {e : Entry O} {start : ℕ}

/-- A map is in order but for its size. -/
structure VmMap.Linked (map : VmMap O) : Prop where
  list : ListInv map.minOffset map.maxOffset { map.counts with size := rangeSum map.entries }
    map.entries
  hint : Denotes map.entries map.hint

theorem lookup_congr (map : VmMap O) (counts : Counts) (firstFree : Option ℕ) (main : Bool)
    (address : ℕ) :
    VmMap.vmMapLookupEntry
        { map with counts := counts, firstFree := firstFree, isMainMap := main } address =
      ((map.vmMapLookupEntry address).1, (map.vmMapLookupEntry address).2.1,
        { (map.vmMapLookupEntry address).2.2 with
          counts := counts, firstFree := firstFree, isMainMap := main }) := by
  rw [VmMap.vmMapLookupEntry, VmMap.vmMapLookupEntry]
  cases (cutHint map.entries map.hint).2 with
  | nil => rfl
  | cons cur rest =>
    dsimp only
    split_ifs <;> rfl

/-- The list of a map cut where an entry covers the address. -/
theorem VmMap.Linked.clipStart (linked : map.Linked) (covers : entryAt map.entries start = some e) :
    ∃ l₁ l₂ hint, map.entries = l₁ ++ e :: l₂ ∧ Denotes map.entries hint ∧ map.clipStart start =
        if e.start < start then
          { found := true
            counts := { map.counts with
              nentries := map.counts.nentries + 1, nextId := map.counts.nextId + 1 }
            hint := hint
            before := l₁ ++ [(e.front start).withId map.counts.nextId]
            rest := e.back start :: l₂ }
        else
          { found := true, counts := map.counts, hint := hint, before := l₁, rest := e :: l₂ } := by
  -- the lookup looks at the list and the hint only
  let whole := { map with
    counts := { map.counts with size := rangeSum map.entries }
    firstFree := none
    isMainMap := true }
  have inv : whole.Inv := ⟨linked.list, linked.hint, fun _ none_ => (nomatch none_), rfl⟩
  obtain ⟨answers, hint, changed, denotes, -⟩ := inv.lookup start
  have lookup : map.vmMapLookupEntry start = ((whole.vmMapLookupEntry start).1,
      (whole.vmMapLookupEntry start).2.1, { map with hint := hint }) := by
    refine (lookup_congr whole map.counts map.firstFree map.isMainMap start).trans ?_
    rw [changed]
  change Answers map.entries _ _ _ at answers
  obtain ⟨before, rest, eq, earlier, ⟨-, -, later⟩ | ⟨found, e', rest', rfl, low, high, here⟩⟩ :=
    answers
  · -- not found, but covered
    rw [eq, entryAt_append_of_stop_le earlier, entryAt, covering_of_lt_start later] at covers
    cases covers
  rw [eq, entryAt_append_of_stop_le earlier, entryAt, covering_cons_of_inside low high] at covers
  cases covers
  have distinct := linked.list.distinct
  rw [eq] at distinct
  refine ⟨before, rest', hint, eq, denotes, ?_⟩
  rw [VmMap.clipStart]
  simp only [lookup, found, here, eq, if_true, getD_some, cutAt_append distinct]

end Linked

/-! ## Entries and their copies -/

section Entries

variable {P D : Type*} {page : ℕ} {has : P → ℕ → Bool} {S : Finset ℕ} {heap heap' : Heap P D}
  {s d e : Entry ℕ} {a m : ℕ}

theorem pageOffset_back (low : e.start ≤ m) (high : m ≤ a) :
    (e.back m).pageOffset a = e.pageOffset a := by
  rw [Entry.pageOffset, Entry.pageOffset, Entry.back]
  rw [BitVec.add_assoc, ← BitVec.ofNat_add, show m - e.start + (a - m) = a - e.start by omega]

theorem pageOffset_lt (e : Entry ℕ) (a : ℕ) : e.pageOffset a < 2 ^ 32 := BitVec.isLt _

/-- An entry that refers to one of the objects `S`, on page boundaries, with its pages in memory if
it is wired. -/
structure Entry.Good (page : ℕ) (heap : Heap P D) (S : Finset ℕ) (e : Entry ℕ) : Prop where
  plain : e.isAMap = false
  object : ∀ o, e.object = some o → o ∈ S
  start : page ∣ e.start
  stop : page ∣ e.stop
  low : e.stop < 2 ^ 32
  resident : e.wiredCount ≠ 0 → ∃ o, e.object = some o ∧ ∀ a, page ∣ a → e.start ≤ a → a < e.stop →
    (vmPageLookup (heap.object o).memq (e.pageOffset a)).isSome

theorem Entry.Good.front (good : e.Good page heap S) (aligned : page ∣ m) (mem : m ≤ e.stop) :
    (e.front m).Good page heap S where
  plain := good.plain
  object := good.object
  start := good.start
  stop := aligned
  low := lt_of_le_of_lt mem good.low
  resident wired := by
    obtain ⟨o, object, resident⟩ := good.resident wired
    exact ⟨o, object, fun a page low high => resident a page low (lt_of_lt_of_le high mem)⟩

theorem Entry.Good.back (good : e.Good page heap S) (aligned : page ∣ m) (mem : e.start ≤ m) :
    (e.back m).Good page heap S where
  plain := good.plain
  object := good.object
  start := aligned
  stop := good.stop
  low := good.low
  resident wired := by
    obtain ⟨o, object, resident⟩ := good.resident wired
    refine ⟨o, object, fun a page low high => ?_⟩
    rw [pageOffset_back mem low]
    exact resident a page (mem.trans low) high

theorem Entry.Good.withId (good : e.Good page heap S) (id : ℕ) : (e.withId id).Good page heap S :=
  ⟨good.plain, good.object, good.start, good.stop, good.low, good.resident⟩

theorem Entry.Good.mono (good : e.Good page heap S) (mem : S ⊆ heap.live)
    (grows : heap.Grows has S heap') : e.Good page heap' S where
  plain := good.plain
  object := good.object
  start := good.start
  stop := good.stop
  low := good.low
  resident wired := by
    obtain ⟨o, object, resident⟩ := good.resident wired
    refine ⟨o, object, fun a page low high => ?_⟩
    rw [(grows.same o (mem (good.object o object))).1]
    exact resident a page low high

/-- An entry still maps an address as another one did; it may have been marked copy-on-write. -/
structure Entry.Follows (a : ℕ) (e e' : Entry ℕ) : Prop where
  object : e'.object = e.object
  offset : e'.pageOffset a = e.pageOffset a
  needsCopy : e.needsCopy = true → e'.needsCopy = true
  protection : e'.protection = e.protection
  wired : e'.wiredCount = e.wiredCount
  plain : e'.isAMap = e.isAMap

theorem Entry.Follows.refl (a : ℕ) (e : Entry ℕ) : Entry.Follows a e e :=
  ⟨rfl, rfl, fun marked => marked, rfl, rfl, rfl⟩

theorem Entry.Follows.trans {e₁ e₂ e₃ : Entry ℕ} (first : Entry.Follows a e₁ e₂)
    (second : Entry.Follows a e₂ e₃) : Entry.Follows a e₁ e₃ where
  object := second.object.trans first.object
  offset := second.offset.trans first.offset
  needsCopy marked := second.needsCopy (first.needsCopy marked)
  protection := second.protection.trans first.protection
  wired := second.wired.trans first.wired
  plain := second.plain.trans first.plain

/-- How an entry `d` of the child stands to an entry `s` of the parent at a page: backed by the
object of `s`, where `s` is marked if that is its object too, or with a page of its own. -/
inductive Twin (heap : Heap P D) (S : Finset ℕ) (s : Entry ℕ) (a : ℕ) (d : Entry ℕ) (b : ℕ) : Prop
  | backed {needsCopy : Bool} (backs : heap.Backs s.object d.object needsCopy)
      (marked : needsCopy = true → s.needsCopy = true) (shadowed : d.needsCopy = true)
      (same : s.object ≠ none → d.pageOffset b = s.pageOffset a)
  | own {o n : ℕ} {p : D} (source : s.object = some o) (live : o ∈ heap.live)
      (object : d.object = some n) (isolated : heap.Isolated n) (outside : n ∉ S)
      (here : vmPageLookup (heap.object n).memq (d.pageOffset b) = some p)
      (there : vmPageLookup (heap.object o).memq (s.pageOffset a) = some p)

theorem Twin.mono {b : ℕ} (twin : Twin heap S s a d b) (grows : heap.Grows has S heap') :
    Twin heap' S s a d b := by
  cases twin with
  | @backed needsCopy backs marked shadowed same =>
    refine .backed ?_ marked shadowed same
    revert backs
    generalize s.object = source, d.object = copy
    intro backs
    cases backs with
    | empty => exact .empty
    | shared live => exact .shared (grows.live live)
    | copied live clean => exact .copied (grows.live live) (grows.clean _ live _ clean)
  | @own o n p source live object isolated outside here there =>
    refine .own (p := p) source (grows.live live) object (grows.isolated n outside isolated) outside
      ?_ ?_
    · rw [(grows.same _ isolated.live).1]
      exact here
    · rw [(grows.same _ live).1]
      exact there

variable {s' : Entry ℕ}

/-- The twin of an entry is one of the entry as it is later. -/
theorem Twin.follow {b : ℕ} (twin : Twin heap S s a d b)
    (follows : Entry.Follows a s s') : Twin heap S s' a d b := by
  cases twin with
  | backed backs marked shadowed same =>
    refine .backed (follows.object ▸ backs) (fun needs => follows.needsCopy (marked needs)) shadowed
      fun some_ => ?_
    rw [follows.offset]
    exact same (follows.object ▸ some_)
  | own source live object isolated outside here there =>
    exact .own (follows.object.trans source) live object isolated outside here
      (follows.offset.symm ▸ there)

/-- The protection of the copy of an entry. -/
def granted (s d : Entry ℕ) : BitVec 32 :=
  if s.wiredCount = 0 ∧ s.protection &&& vmProtExecute ≠ 0 then
    d.protection ||| (vmProtExecute &&& d.maxProtection)
  else d.protection

/-- What `vm_map_copy_entry` leaves of the destination: all but the object, and the protection. -/
structure Entry.CopyOf (s d d' : Entry ℕ) : Prop where
  id : d'.id = d.id
  start : d'.start = d.start
  stop : d'.stop = d.stop
  plain : d'.isAMap = d.isAMap
  noSubMap : d'.isSubMap = d.isSubMap
  wired : d'.wiredCount = d.wiredCount
  maxProtection : d'.maxProtection = d.maxProtection
  protection : d'.protection = granted s d

/-- What `vm_map_copy_entry` leaves of the source: all but its marks. -/
def Entry.Marked (s s' : Entry ℕ) : Prop :=
  ∃ needsCopy copyOnWrite, s' = { s with needsCopy := needsCopy, copyOnWrite := copyOnWrite } ∧
    (s.needsCopy = true → needsCopy = true)

theorem Entry.Marked.follows (marked : Entry.Marked s s') (a : ℕ) :
    Entry.Follows a s s' := by
  obtain ⟨needsCopy, copyOnWrite, rfl, mono⟩ := marked
  exact ⟨rfl, rfl, mono, rfl, rfl, rfl⟩

theorem Entry.Marked.good (marked : Entry.Marked s s')
    (good : s.Good page heap S) : s'.Good page heap S := by
  obtain ⟨needsCopy, copyOnWrite, rfl, -⟩ := marked
  exact ⟨good.plain, good.object, good.start, good.stop, good.low, good.resident⟩

/-! ## `vm_fault_copy_entry` -/

theorem copyPages_spec (pos : 0 < page) (memq : List (ℕ × D)) (srcOffset count dstOffset : ℕ)
    (resident : ∀ k < count,
      (vmPageLookup memq ((dstOffset + k * page + srcOffset) % 2 ^ 32)).isSome) :
    ∃ pages, copyPages page memq srcOffset count dstOffset = some pages ∧
      ∀ k < count, vmPageLookup pages (dstOffset + k * page) =
        vmPageLookup memq ((dstOffset + k * page + srcOffset) % 2 ^ 32) := by
  induction count generalizing dstOffset with
  | zero => exact ⟨[], rfl, fun k impossible => absurd impossible (Nat.not_lt_zero k)⟩
  | succ count ih =>
    have next (k : ℕ) : dstOffset + page + k * page = dstOffset + (k + 1) * page := by
      rw [Nat.succ_mul]
      omega
    have first := resident 0 (Nat.succ_pos count)
    rw [zero_mul, add_zero] at first
    obtain ⟨p, first⟩ := isSome_iff_exists.mp first
    obtain ⟨pages, copied, same⟩ := ih (dstOffset + page) fun k mem => by
      rw [next]
      exact resident (k + 1) (Nat.succ_lt_succ mem)
    refine ⟨(dstOffset, p) :: pages, ?_, fun k mem => ?_⟩
    · rw [copyPages, first, copied]
      rfl
    rw [vmPageLookup_cons]
    cases k with
    | zero => rw [zero_mul, add_zero, if_pos rfl, first]
    | succ k =>
      have : 0 < (k + 1) * page := Nat.mul_pos (Nat.succ_pos k) pos
      rw [if_neg (show ¬ dstOffset = dstOffset + (k + 1) * page by omega), ← next,
        same k (Nat.lt_of_succ_lt_succ mem)]

theorem vmFaultCopyEntry_spec (has : P → ℕ → Bool) (pos : 0 < page) (wf : heap.Wf)
    (mem : S ⊆ heap.live)
    (good : s.Good page heap S) (wired : s.wiredCount ≠ 0)
    (length : d.stop - d.start = s.stop - s.start) :
    ∃ copy, vmFaultCopyEntry page heap s d = some copy ∧ heap.Grows has S copy.heap ∧
      copy.src = s ∧ copy.dst = { d with object := some heap.next, offset := 0 } ∧
      ∀ k, page ∣ k → k < s.stop - s.start →
        Twin copy.heap S copy.src (s.start + k) copy.dst (d.start + k) := by
  obtain ⟨o, object, resident⟩ := good.resident wired
  have member := mem (good.object o object)
  have fresh : heap.next ∉ S := fun old => wf.ne_next (mem old) rfl
  have low := good.low
  -- the page at `k` in the source
  have offset (k : ℕ) : (k + s.offset.toNat) % 2 ^ 32 = s.pageOffset (s.start + k) := by
    rw [Entry.pageOffset, BitVec.toNat_add, BitVec.toNat_ofNat, Nat.add_sub_cancel_left]
    omega
  have count (k : ℕ) : k < (d.stop - d.start + page - 1) / page ↔ k * page < d.stop - d.start := by
    rw [← Nat.succ_le_iff, Nat.le_div_iff_mul_le pos, Nat.succ_mul]
    omega
  have zero : ∀ x : BitVec 32, 0 + x = x := BitVec.zero_add
  obtain ⟨pages, copied, same⟩ := copyPages_spec pos (heap.object o).memq
    s.offset.toNat ((d.stop - d.start + page - 1) / page) 0 (fun k high => by
      rw [zero_add, offset]
      have := (count k).mp high
      exact resident _ (Nat.dvd_add good.start (Nat.dvd_mul_left page k)) (Nat.le_add_right _ _)
        (by omega))
  have isolated := heap.add_isolated wf
    (o := { vmObjectAllocate P D (d.stop - d.start) with memq := pages }) rfl
    (fun _ link => by cases link)
  refine ⟨_, by rw [vmFaultCopyEntry, object, bind_some, copied]; rfl,
    Heap.add_grows (o := { vmObjectAllocate P D (d.stop - d.start) with memq := pages }) wf rfl
      (fun _ link => by cases link) (fun _ link => by cases link), rfl, rfl, ?_⟩
  rintro k ⟨j, rfl⟩ high
  have here := same j ((count j).mpr (by rw [length, mul_comm]; exact high))
  rw [zero_add, offset, Nat.mul_comm] at here
  have there := resident (s.start + page * j) (Nat.dvd_add good.start (Nat.dvd_mul_right page j))
    (Nat.le_add_right _ _) (by omega)
  obtain ⟨p, there⟩ := isSome_iff_exists.mp there
  refine .own object (Finset.mem_insert_of_mem member) rfl isolated fresh ?_ (p := p) ?_
  · rw [Heap.add_self]
    have own : Entry.pageOffset { d with object := some heap.next, offset := 0 }
        (d.start + page * j) = page * j := by
      rw [Entry.pageOffset]
      rw [zero (BitVec.ofNat 32 _), BitVec.toNat_ofNat, Nat.add_sub_cancel_left]
      exact Nat.mod_eq_of_lt (by omega)
    rw [own]
    exact here.trans there
  · rw [Heap.add_other _ (wf.ne_next member)]
    exact there

/-! ## `vm_map_copy_entry` -/

/-- A copy of a whole entry. -/
theorem vmMapCopyEntry_spec (has : P → ℕ → Bool) (pos : 0 < page) (wf : heap.Wf)
    (mem : S ⊆ heap.live)
    (good : s.Good page heap S) (noSubMap : s.isSubMap = false) (noSubMap' : d.isSubMap = false)
    (length : d.stop - d.start = s.stop - s.start) :
    ∃ copy, vmMapCopyEntry page heap s d = some copy ∧ heap.Grows has S copy.heap ∧
      Entry.Marked s copy.src ∧ Entry.CopyOf s d copy.dst ∧
      ∀ k, page ∣ k → k < s.stop - s.start →
        Twin copy.heap S copy.src (s.start + k) copy.dst (d.start + k) := by
  rw [vmMapCopyEntry, if_neg (by rw [noSubMap, noSubMap']; simp)]
  by_cases wired : s.wiredCount = 0
  · rw [if_pos wired]
    obtain ⟨grows, backs, offset⟩ := vmObjectCopy_grows has S wf s.object
      (fun o object => ⟨mem (good.object o object), good.object o object⟩)
      s.offset
    refine
      ⟨_, rfl, grows, ⟨s.needsCopy || _, true, rfl, fun marked => by rw [marked, Bool.true_or]⟩,
      ⟨rfl, rfl, rfl, rfl, rfl, rfl, rfl, ?_⟩, fun k _ _ => ?_⟩
    · rw [granted]
      simp only [wired, true_and]
    refine .backed backs (fun needs => ?_) rfl fun some_ => ?_
    · show (s.needsCopy || _) = true
      rw [needs, Bool.or_true]
    · rw [Entry.pageOffset, Entry.pageOffset]
      rw [offset some_, Nat.add_sub_cancel_left, Nat.add_sub_cancel_left]
  · rw [if_neg wired]
    obtain ⟨copy, copied, grows, src, dst, twins⟩ :=
      vmFaultCopyEntry_spec has pos wf mem good wired length
    refine ⟨copy, copied, grows, ⟨s.needsCopy, s.copyOnWrite, src, fun marked => marked⟩, ?_, twins⟩
    rw [dst]
    refine ⟨rfl, rfl, rfl, rfl, rfl, rfl, rfl, ?_⟩
    rw [granted, if_neg fun both => wired both.1]

end Entries

/-! ## The loop of `vm_map_copy` -/

section Loop

variable {P D : Type*} {page : ℕ} {has : P → ℕ → Bool} {S : Finset ℕ} {heap : Heap P D}
  {s d e : Entry ℕ} {a lo hi stop : ℕ} {size : ℤ} {c : Cursor} {before : List (Entry ℕ)}

theorem Cursor.clipEnd_of_le (stop : ℕ) (le : c.entry.stop ≤ stop) : c.clipEnd stop = c :=
  if_neg (not_lt.mpr le)

theorem Cursor.clipEnd_inv
    (inv : ListInv lo hi { c.counts with size := size } (before ++ c.entry :: c.rest))
    (low : c.entry.start < stop) :
    ListInv lo hi { (c.clipEnd stop).counts with size := size }
      (before ++ (c.clipEnd stop).entry :: (c.clipEnd stop).rest) := by
  rw [clipEnd]
  split_ifs with clips
  · exact inv.splitBack low clips
  · exact inv

theorem Cursor.clipEnd_ids (stop : ℕ) (c : Cursor) :
    (c.entry :: c.rest).map Entry.id ⊆
      ((c.clipEnd stop).entry :: (c.clipEnd stop).rest).map Entry.id := by
  rw [clipEnd]
  split_ifs
  · rw [map_cons, map_cons, map_cons]
    exact cons_subset_cons _ (subset_cons_self _ _)
  · exact List.Subset.refl _

/-- Clipping changes no address. -/
theorem Cursor.clipEnd_follows (low : c.entry.start ≤ stop)
    (covers : entryAt (c.entry :: c.rest) a = some e) :
    ∃ e', entryAt ((c.clipEnd stop).entry :: (c.clipEnd stop).rest) a = some e' ∧
      Entry.Follows a e e' := by
  rw [clipEnd]
  split_ifs with clips
  swap
  · exact ⟨e, covers, .refl a e⟩
  by_cases mem : c.entry.start ≤ a ∧ a < c.entry.stop
  · rw [entryAt, covering_cons_of_inside mem.1 mem.2] at covers
    cases covers
    by_cases side : a < stop
    · exact ⟨_, covering_cons_of_inside (e := c.entry.front stop) mem.1 side _,
        ⟨rfl, rfl, fun marked => marked, rfl, rfl, rfl⟩⟩
    refine ⟨(c.entry.back stop).withId c.counts.nextId, ?_,
      ⟨rfl, pageOffset_back low (not_lt.mp side), fun marked => marked, rfl, rfl, rfl⟩⟩
    rw [entryAt, covering_cons_of_outside fun both => side both.2]
    exact covering_cons_of_inside (e := (c.entry.back stop).withId c.counts.nextId)
      (not_lt.mp side) mem.2 _
  · rw [entryAt, covering_cons_of_outside mem] at covers
    refine ⟨e, ?_, .refl a e⟩
    refine (covering_cons_of_outside (e := c.entry.front stop)
      (fun both => mem ⟨both.1, lt_trans both.2 clips⟩) _).trans ?_
    refine (covering_cons_of_outside (e := (c.entry.back stop).withId c.counts.nextId)
      (fun both => mem ⟨le_trans low both.1, both.2⟩) _).trans covers

variable {l : List (Entry ℕ)} {s' : Entry ℕ}

/-- Where a list covers its lower bound, its first entry does. -/
theorem head_of_covers (segments : Segments Entry.start Entry.stop lo l hi)
    (covers : entryAt l lo ≠ none) : ∃ e rest, l = e :: rest ∧ e.start = lo := by
  cases l with
  | nil => exact absurd rfl covers
  | cons e rest =>
    obtain ⟨first, order, -, later⟩ := segments
    refine ⟨e, rest, rfl, ?_⟩
    by_contra other
    refine covers (covering_of_lt_start fun d mem => ?_)
    rcases mem_cons.mp mem with rfl | mem
    · omega
    · have := (later.bounds mem).1
      omega

/-- What a copy makes of an entry `d` of the child, at an address that the entry `s` of the sharing
map is copied to. -/
structure CopiedAt (page : ℕ) (heap : Heap P D) (S : Finset ℕ) (s s' : Entry ℕ) (a : ℕ)
    (d d' : Entry ℕ) (b : ℕ) : Prop where
  follows : Entry.Follows a s s'
  protection : d'.protection = granted s d
  maxProtection : d'.maxProtection = d.maxProtection
  plain : d'.isAMap = false
  twin : page ∣ b → Twin heap S s' a d' b

/-- What the loop does to a window of a sharing map and to the entry of the child. -/
structure CopyRun (page : ℕ) (has : P → ℕ → Bool) (S : Finset ℕ) (heap : Heap P D)
    (src : Counts × List (Entry ℕ)) (counts : Counts) (d : Entry ℕ) (srcStart : ℕ)
    (loop : LoopCopy P D) : Prop where
  grows : heap.Grows has S loop.heap
  size : loop.src.1.size = src.1.size
  srcList : ∀ lo hi before size, ListInv lo hi { src.1 with size := size } (before ++ src.2) →
    ListInv lo hi { loop.src.1 with size := size } (before ++ loop.src.2)
  srcIds : src.2.map Entry.id ⊆ loop.src.2.map Entry.id
  dstList : ∀ lo hi before size, ListInv lo hi { counts with size := size } (before ++ [d]) →
    ListInv lo hi { loop.dst.1 with size := size } (before ++ loop.dst.2)
  dstIds : d.id ∈ loop.dst.2.map Entry.id
  good : ∀ s ∈ loop.src.2, s.Good page loop.heap S
  follows : ∀ a s, entryAt src.2 a = some s →
    ∃ s', entryAt loop.src.2 a = some s' ∧ Entry.Follows a s s'
  members : ∀ e ∈ loop.dst.2, d.start ≤ e.start ∧ e.wiredCount = d.wiredCount
  copied : ∀ b, d.start ≤ b → b < d.stop → ∃ s s' d',
    entryAt src.2 (srcStart + (b - d.start)) = some s ∧
    entryAt loop.src.2 (srcStart + (b - d.start)) = some s' ∧ entryAt loop.dst.2 b = some d' ∧
    CopiedAt page loop.heap S s s' (srcStart + (b - d.start)) d d' b

theorem Entry.Marked.same (marked : Entry.Marked s s') : s'.id = s.id ∧
    s'.start = s.start ∧ s'.stop = s.stop ∧ s'.isSubMap = s.isSubMap := by
  obtain ⟨needsCopy, copyOnWrite, rfl, -⟩ := marked
  exact ⟨rfl, rfl, rfl, rfl⟩

/-- An entry is replaced by one at the same place. -/
theorem entryAt_cons_same (start : s'.start = s.start)
    (stop : s'.stop = s.stop) (covers : entryAt (s :: l) a = some e)
    (follows : Entry.Follows a s s') :
    ∃ e', entryAt (s' :: l) a = some e' ∧ Entry.Follows a e e' := by
  by_cases mem : s.start ≤ a ∧ a < s.stop
  · rw [entryAt, covering_cons_of_inside mem.1 mem.2] at covers
    cases covers
    exact ⟨s', covering_cons_of_inside (e := s') (start ▸ mem.1) (stop ▸ mem.2) _, follows⟩
  · rw [entryAt, covering_cons_of_outside mem] at covers
    exact ⟨e, (covering_cons_of_outside (e := s') (start ▸ stop ▸ mem) l).trans covers,
      .refl a e⟩

/-- The last turn: the source entry is clipped to the end of the window. -/
theorem CopyRun.last {sc dc : Counts} {rest : List (Entry ℕ)} {srcStop : ℕ}
    {copy : EntryCopy P D} (grows : heap.Grows has S copy.heap)
    (marked : Entry.Marked ((Cursor.mk sc s rest).clipEnd srcStop).entry copy.src)
    (copyOf : Entry.CopyOf ((Cursor.mk sc s rest).clipEnd srcStop).entry d copy.dst)
    (good : ∀ e ∈ ((Cursor.mk sc s rest).clipEnd srcStop).entry ::
      ((Cursor.mk sc s rest).clipEnd srcStop).rest, e.Good page copy.heap S)
    (plain : d.isAMap = false) (noSubMap : s.isSubMap = false) (noSubMap' : d.isSubMap = false)
    (reaches : srcStop ≤ s.stop) (order : s.start < srcStop)
    (length : d.stop - d.start = srcStop - s.start)
    (twins : ∀ b, page ∣ b → d.start ≤ b → b < d.stop →
      Twin copy.heap S copy.src (s.start + (b - d.start)) copy.dst b) :
    CopyRun page has S heap (sc, s :: rest) dc d s.start
      { heap := copy.heap
        src := (((Cursor.mk sc s rest).clipEnd srcStop).counts,
          copy.src :: ((Cursor.mk sc s rest).clipEnd srcStop).rest)
        dst := (dc, [copy.dst]) } := by
  obtain ⟨srcId, srcStart, srcStop', srcPlain⟩ := marked.same
  have clipped : ((Cursor.mk sc s rest).clipEnd srcStop).entry.start = s.start ∧
      ((Cursor.mk sc s rest).clipEnd srcStop).entry.stop = srcStop ∧
      ((Cursor.mk sc s rest).clipEnd srcStop).entry.isSubMap = s.isSubMap ∧
      ((Cursor.mk sc s rest).clipEnd srcStop).counts.size = sc.size ∧
      granted ((Cursor.mk sc s rest).clipEnd srcStop).entry d = granted s d := by
    rw [Cursor.clipEnd]
    split_ifs with clips
    · exact ⟨rfl, rfl, rfl, rfl, rfl⟩
    · exact ⟨rfl, le_antisymm (not_lt.mp clips) reaches, rfl, rfl, rfl⟩
  obtain ⟨start, stop, subMap, size, same⟩ := clipped
  refine ⟨grows, size, fun lo hi before size inv => ?_, ?_, fun lo hi before size inv => ?_, ?_, ?_,
    ?_, ?_, ?_⟩
  · exact (clipEnd_inv (c := ⟨sc, s, rest⟩) inv order).change srcId srcStart srcStop'
      (by rw [srcPlain, subMap, noSubMap])
  · have ids := clipEnd_ids srcStop ⟨sc, s, rest⟩
    rw [map_cons, map_cons] at ids ⊢
    rw [srcId]
    exact ids
  · exact inv.change copyOf.id copyOf.start copyOf.stop (copyOf.noSubMap.trans noSubMap')
  · rw [map_singleton, copyOf.id]
    exact mem_singleton_self _
  · intro e mem
    rcases mem_cons.mp mem with rfl | mem
    · exact marked.good (good _ mem_cons_self)
    · exact good e (mem_cons_of_mem _ mem)
  · intro a e covers
    obtain ⟨e', covers', follows⟩ :=
      clipEnd_follows (c := ⟨sc, s, rest⟩) order.le covers
    obtain ⟨e'', covers'', follows'⟩ :=
      entryAt_cons_same srcStart srcStop' covers' (marked.follows a)
    exact ⟨e'', covers'', follows.trans follows'⟩
  · intro e mem
    obtain rfl := mem_singleton.mp mem
    exact ⟨copyOf.start.ge, copyOf.wired⟩
  intro b low high
  have here : s.start + (b - d.start) < srcStop := by omega
  refine ⟨s, copy.src, copy.dst, covering_cons_of_inside (by omega) (by omega) _,
    covering_cons_of_inside (e := copy.src) (by rw [srcStart, start]; omega)
      (by rw [srcStop', stop]; exact here) _,
    covering_cons_of_inside (e := copy.dst) (copyOf.start.trans_le low)
      (high.trans_eq copyOf.stop.symm) _, ?_⟩
  refine ⟨?_, copyOf.protection.trans same, copyOf.maxProtection, copyOf.plain.trans plain,
    fun aligned => twins b aligned low high⟩
  -- the clipped entry starts where it did
  have front : Entry.Follows (s.start + (b - d.start)) s
      ((Cursor.mk sc s rest).clipEnd srcStop).entry := by
    rw [Cursor.clipEnd]
    split_ifs
    · exact ⟨rfl, rfl, fun marked => marked, rfl, rfl, rfl⟩
    · exact .refl _ _
  exact front.trans (marked.follows _)

/-- A turn in front of others: the child's entry is clipped where the source entry ends. -/
theorem CopyRun.cons {sc dc : Counts} {rest : List (Entry ℕ)} {srcStop m : ℕ}
    {copy : EntryCopy P D} {loop : LoopCopy P D} (grows : heap.Grows has S copy.heap)
    (mem : S ⊆ heap.live) (marked : Entry.Marked s copy.src)
    (copyOf : Entry.CopyOf s (d.front m) copy.dst) (good : s.Good page heap S)
    (plain : d.isAMap = false) (noSubMap : s.isSubMap = false) (noSubMap' : d.isSubMap = false)
    (before_ : s.stop < srcStop) (order : s.start < s.stop)
    (length : d.stop - d.start = srcStop - s.start) (clip : m = d.start + (s.stop - s.start))
    (twins : ∀ b, page ∣ b → d.start ≤ b → b < m →
      Twin copy.heap S copy.src (s.start + (b - d.start)) copy.dst b)
    (run : CopyRun page has S copy.heap (sc, rest)
      { dc with nentries := dc.nentries + 1, nextId := dc.nextId + 1 }
      ((d.back m).withId dc.nextId) s.stop loop) :
    CopyRun page has S heap (sc, s :: rest) dc d s.start
      { heap := loop.heap
        src := (loop.src.1, copy.src :: loop.src.2)
        dst := (loop.dst.1, copy.dst :: loop.dst.2) } := by
  obtain ⟨srcId, srcStart, srcStop', srcPlain⟩ := marked.same
  have low : d.start < m := by omega
  have high : m < d.stop := by omega
  have outside {a : ℕ} (later : s.stop ≤ a) : ¬ (copy.src.start ≤ a ∧ a < copy.src.stop) := by
    rw [srcStop']
    omega
  refine ⟨grows.trans run.grows, run.size, fun lo hi before size inv => ?_, ?_,
    fun lo hi before size inv => ?_, ?_, ?_, ?_, ?_, ?_⟩
  · have inv' := inv.change srcId srcStart srcStop' (srcPlain.trans noSubMap)
    rw [append_cons] at inv' ⊢
    exact run.srcList lo hi _ size inv'
  · rw [map_cons, map_cons, srcId]
    exact cons_subset_cons _ run.srcIds
  · have inv' := (inv.splitBack low high).change (d := copy.dst) copyOf.id copyOf.start copyOf.stop
      (copyOf.noSubMap.trans noSubMap')
    rw [append_cons] at inv' ⊢
    exact run.dstList lo hi _ size inv'
  · exact mem_map.mpr ⟨copy.dst, mem_cons_self, copyOf.id⟩
  · intro e member
    rcases mem_cons.mp member with rfl | member
    · exact (marked.good good).mono mem (grows.trans run.grows)
    · exact run.good e member
  · intro a e covers
    obtain ⟨e', covers', follows⟩ := entryAt_cons_same srcStart srcStop' covers (marked.follows a)
    by_cases here : copy.src.start ≤ a ∧ a < copy.src.stop
    · rw [entryAt, covering_cons_of_inside here.1 here.2] at covers'
      cases covers'
      exact ⟨_, covering_cons_of_inside here.1 here.2 _, follows⟩
    · rw [entryAt, covering_cons_of_outside here] at covers'
      obtain ⟨e'', covers'', follows'⟩ := run.follows a e' covers'
      exact ⟨e'', (covering_cons_of_outside here _).trans covers'', follows.trans follows'⟩
  · intro e member
    rcases mem_cons.mp member with rfl | member
    · exact ⟨copyOf.start.ge, copyOf.wired⟩
    · obtain ⟨later, wired⟩ := run.members e member
      exact ⟨low.le.trans later, wired⟩
  · intro b from_ to_
    by_cases first : b < m
    · refine ⟨s, copy.src, copy.dst, covering_cons_of_inside (by omega) (by omega) _,
        covering_cons_of_inside (e := copy.src) (by rw [srcStart]; omega)
          (by rw [srcStop']; omega) _,
        covering_cons_of_inside (e := copy.dst) (copyOf.start.trans_le from_)
          (first.trans_eq copyOf.stop.symm) _, ?_⟩
      exact ⟨marked.follows _, copyOf.protection, copyOf.maxProtection, copyOf.plain.trans plain,
        fun aligned => (twins b aligned from_ first).mono run.grows⟩
    · obtain ⟨e, e', d', covers, covers', copied, at_⟩ := run.copied b (not_lt.mp first) to_
      have same : s.stop + (b - m) = s.start + (b - d.start) := by omega
      have later : s.stop ≤ s.start + (b - d.start) := by omega
      change entryAt rest (s.stop + (b - m)) = some e at covers
      change entryAt loop.src.2 (s.stop + (b - m)) = some e' at covers'
      change CopiedAt page loop.heap S e e' (s.stop + (b - m)) _ d' b at at_
      rw [same] at covers covers' at_
      refine ⟨e, e', d', (covering_cons_of_outside (e := s) (by omega) rest).trans covers,
        (covering_cons_of_outside (outside later) _).trans covers',
        (covering_cons_of_outside (e := copy.dst) (fun both => first
          (both.2.trans_eq copyOf.stop)) _).trans copied, ?_⟩
      exact ⟨at_.follows, at_.protection, at_.maxProtection, at_.plain, at_.twin⟩

/-- The loop goes over the window of the sharing map, and does so to its end. -/
theorem copyLoop_spec (pos : 0 < page) {srcStop fuel : ℕ} {sc dc : Counts} {ss : List (Entry ℕ)}
    {srcStart : ℕ} (wf : heap.Wf) (mem : S ⊆ heap.live)
    (good : ∀ s ∈ ss, s.Good page heap S) (noSubMap : ∀ s ∈ ss, s.isSubMap = false)
    (segments : Segments Entry.start Entry.stop srcStart ss hi)
    (covered : ∀ a, srcStart ≤ a → a < srcStop → entryAt ss a ≠ none)
    (alignedStop : page ∣ srcStop) (alignedStart : page ∣ d.start) (plain : d.isAMap = false)
    (noSubMap' : d.isSubMap = false) (length : d.start + (srcStop - srcStart) = d.stop)
    (order : srcStart < srcStop) (enough : ss.length < fuel) :
    ∃ loop, copyLoop page srcStop d.stop fuel srcStart heap (sc, ss) (dc, [d]) = some loop ∧
      CopyRun page has S heap (sc, ss) dc d srcStart loop := by
  induction fuel generalizing heap sc dc ss d srcStart with
  | zero => exact absurd enough (Nat.not_lt_zero _)
  | succ fuel ih =>
    obtain ⟨s, rest, rfl, rfl⟩ := head_of_covers segments (covered srcStart le_rfl order)
    have goodHead := good s mem_cons_self
    have plainHead := noSubMap s mem_cons_self
    obtain ⟨-, ordered, -, later⟩ := segments
    -- the page of the child at `b` is that of the window at the same distance
    have twinAt {copy : EntryCopy P D} {s' : Entry ℕ} {stop : ℕ} (start : s'.start = s.start)
        (twins : ∀ k, page ∣ k → k < stop - s'.start →
          Twin copy.heap S copy.src (s'.start + k) copy.dst (d.start + k)) (b : ℕ)
        (aligned : page ∣ b) (low : d.start ≤ b) (high : b - d.start < stop - s'.start) :
        Twin copy.heap S copy.src (s.start + (b - d.start)) copy.dst b := by
      have twin := twins (b - d.start) (Nat.dvd_sub aligned alignedStart) high
      rw [start, Nat.add_sub_cancel' low] at twin
      exact twin
    by_cases reaches : srcStop ≤ s.stop
    · -- the last turn
      have clipped : ((mk sc s rest).clipEnd srcStop).entry.start = s.start ∧
          ((mk sc s rest).clipEnd srcStop).entry.stop = srcStop ∧
          ((mk sc s rest).clipEnd srcStop).entry.isSubMap = s.isSubMap ∧
          ((mk sc s rest).clipEnd srcStop).entry.isAMap = s.isAMap ∧
          ∀ e ∈ ((mk sc s rest).clipEnd srcStop).entry ::
            ((mk sc s rest).clipEnd srcStop).rest, e.Good page heap S := by
        rw [clipEnd]
        split_ifs with clips
        · refine ⟨rfl, rfl, rfl, rfl, fun e member => ?_⟩
          rcases mem_cons.mp member with rfl | member
          · exact goodHead.front alignedStop reaches
          rcases mem_cons.mp member with rfl | member
          · exact (goodHead.back alignedStop order.le).withId _
          · exact good e (mem_cons_of_mem s member)
        · exact ⟨rfl, le_antisymm (not_lt.mp clips) reaches, rfl, rfl, good⟩
      obtain ⟨start, stop, subMap, isMap, goods⟩ := clipped
      obtain ⟨copy, copied, grows, marked, copyOf, twins⟩ :=
        vmMapCopyEntry_spec has (d := d) pos wf mem (goods _ mem_cons_self)
          (subMap.trans plainHead) noSubMap' (by rw [start, stop]; omega)
      refine ⟨_, ?_, CopyRun.last grows marked copyOf
        (fun e member => (goods e member).mono mem grows) plain plainHead noSubMap' reaches order
        (by omega) fun b aligned low high => ?_⟩
      · obtain ⟨n, rfl⟩ := Nat.exists_eq_succ_of_ne_zero (show fuel ≠ 0 by
          rw [length_cons] at enough
          omega)
        rw [copyLoop, if_pos order]
        dsimp only
        rw [clipEnd_of_le d.stop (c := ⟨dc, d, []⟩) le_rfl]
        rw [clipEnd_of_le (_ + (d.stop - d.start))
          (c := (mk sc s rest).clipEnd srcStop) (by rw [start, stop]; omega)]
        rw [clipEnd_of_le (d.start + _) (c := ⟨dc, d, []⟩) (by
          rw [start, stop]
          show d.stop ≤ _
          omega)]
        rw [isMap, goodHead.plain, plain, if_neg (by simp), copied, bind_some, copyLoop,
          marked.same.2.2.1, stop, if_neg (lt_irrefl _)]
        rfl
      · exact twinAt start twins b aligned low (by rw [start, stop]; omega)
    · -- the source entry ends inside of the window
      have ends := not_le.mp reaches
      obtain ⟨m, clip⟩ : ∃ m, m = d.start + (s.stop - s.start) := ⟨_, rfl⟩
      obtain ⟨copy, copied, grows, marked, copyOf, twins⟩ :=
        vmMapCopyEntry_spec has (d := d.front m) pos wf mem goodHead plainHead noSubMap'
          (by show m - d.start = _; omega)
      have alignedNext : page ∣ m := by
        rw [clip]
        exact Nat.dvd_add alignedStart (Nat.dvd_sub goodHead.stop goodHead.start)
      let counts := { dc with nentries := dc.nentries + 1, nextId := dc.nextId + 1 }
      let back := (d.back m).withId dc.nextId
      have alignedBack : page ∣ back.start := alignedNext
      have backPlain : back.isAMap = false := plain
      have backNoSubMap : back.isSubMap = false := noSubMap'
      have backLength : back.start + (srcStop - s.stop) = back.stop := by
        show m + (srcStop - s.stop) = d.stop
        omega
      obtain ⟨loop, looped, run⟩ : ∃ loop,
          copyLoop page srcStop d.stop fuel s.stop copy.heap (sc, rest) (counts, [back]) =
            some loop ∧ CopyRun page has S copy.heap (sc, rest) counts back s.stop loop :=
        ih grows.wf (mem.trans grows.live)
        (fun e member => (good e (mem_cons_of_mem s member)).mono mem grows)
        (fun e member => noSubMap e (mem_cons_of_mem s member)) later
        (fun a low high => by
          have covers := covered a (ordered.le.trans low) high
          rw [entryAt, covering_cons_of_outside (e := s) (by omega)] at covers
          exact covers)
        alignedBack backPlain backNoSubMap backLength ends
        (by rw [length_cons] at enough; omega)
      refine ⟨_, ?_, CopyRun.cons grows mem marked copyOf goodHead plain
        plainHead noSubMap' ends ordered (by omega) clip
        (fun b aligned low high => twinAt rfl twins b aligned low (by omega)) run⟩
      rw [copyLoop, if_pos order]
      dsimp only
      rw [clipEnd_of_le srcStop (c := ⟨sc, s, rest⟩) ends.le,
        clipEnd_of_le d.stop (c := ⟨dc, d, []⟩) le_rfl]
      rw [clipEnd_of_le (s.start + (d.stop - d.start)) (c := ⟨sc, s, rest⟩)
        (by show s.stop ≤ _; omega)]
      rw [← clip, clipEnd, if_pos (show m < d.stop by omega)]
      rw [goodHead.plain, show (d.front m).isAMap = false from plain, if_neg (by simp), copied,
        bind_some, marked.same.2.2.1, looped]
      rfl

end Loop

end Darwin.Vm.Map
