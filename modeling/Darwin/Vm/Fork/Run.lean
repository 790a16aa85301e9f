import Darwin.Vm.Fork.Copy

/-!
# The loop of `vm_map_fork`

What the loop does for one entry of the parent, address by address, and from it what it does for all
of them.

## Main results

* `World.vmMapCopy_spec` - the copy of a window of a sharing map into the child
* `forkEntry_spec` - one entry
* `forkLoop_spec` - all entries
-/

namespace Darwin.Vm.Map

open List Option Entry
open Function (update_of_ne update_self)
open Darwin.Lib Darwin.Vm.Object

/-! ## Worlds during the fork -/

section Worlds

variable {P D : Type*} {page : ℕ} {has : P → ℕ → Bool} {S : Finset ℕ} {w w' : World P D}
  {map child : VmMap ℕ} {e d : Entry ℕ} {a lo hi : ℕ}

/-- The sharing maps are in order, and their entries refer to objects of `S`. -/
structure World.Good (page : ℕ) (S : Finset ℕ) (w : World P D) : Prop where
  heap : w.heap.Wf
  inside : S ⊆ w.heap.live
  linked : ∀ m < w.nextMap, (w.shareMap m).Linked
  entries : ∀ m < w.nextMap, ∀ s ∈ (w.shareMap m).entries, s.Good page w.heap S

/-- A later world: what was there maps its addresses as before. -/
structure World.Extends (has : P → ℕ → Bool) (S : Finset ℕ) (w w' : World P D) : Prop where
  heap : w.heap.Grows has S w'.heap
  nextMap : w.nextMap ≤ w'.nextMap
  size : ∀ m < w.nextMap, (w'.shareMap m).counts.size = (w.shareMap m).counts.size
  entries : ∀ m < w.nextMap, ∀ a s, entryAt (w.shareMap m).entries a = some s →
    ∃ s', entryAt (w'.shareMap m).entries a = some s' ∧ Follows a s s'

theorem World.Extends.refl (wf : w.heap.Wf) : w.Extends has S w where
  heap := .refl wf
  nextMap := le_rfl
  size _ _ := rfl
  entries _ _ a s covers := ⟨s, covers, .refl a s⟩

theorem World.Extends.trans {w₁ w₂ w₃ : World P D} (first : w₁.Extends has S w₂)
    (second : w₂.Extends has S w₃) : w₁.Extends has S w₃ where
  heap := first.heap.trans second.heap
  nextMap := first.nextMap.trans second.nextMap
  size m old := (second.size m (old.trans_le first.nextMap)).trans (first.size m old)
  entries m old a s covers := by
    obtain ⟨s', covers', follows⟩ := first.entries m old a s covers
    obtain ⟨s'', covers'', follows'⟩ := second.entries m (old.trans_le first.nextMap) a s' covers'
    exact ⟨s'', covers'', follows.trans follows'⟩

variable {heap : Heap P D} {s e' : Entry ℕ} {O : Type*} {l more pieces : List (Entry ℕ)}

/-- Only the heap has changed. -/
theorem World.Good.withHeap (good : w.Good page S)
    (grows : w.heap.Grows has S heap) : World.Good page S { w with heap := heap } where
  heap := grows.wf
  inside := good.inside.trans grows.live
  linked := good.linked
  entries m old s mem := (good.entries m old s mem).mono good.inside grows

theorem World.Extends.withHeap (grows : w.heap.Grows has S heap) :
    w.Extends has S { w with heap := heap } where
  heap := grows
  nextMap := le_rfl
  size _ _ := rfl
  entries _ _ a s covers := ⟨s, covers, .refl a s⟩

/-- The parent's entries, as they are before the fork gets to them. -/
structure World.Ready (page : ℕ) (S : Finset ℕ) (w : World P D) (e : Entry ℕ) : Prop where
  start : page ∣ e.start
  stop : page ∣ e.stop
  low : e.stop < 2 ^ 32
  noSubMap : e.isSubMap = false
  plain : e.isAMap = false → e.Good page w.heap S
  window : e.isAMap = true → ∃ m, e.object = some m ∧ m < w.nextMap ∧ page ∣ e.offset.toNat ∧
    e.offset.toNat + (e.stop - e.start) < 2 ^ 32 ∧
    ∀ a, e.offset.toNat ≤ a → a < e.offset.toNat + (e.stop - e.start) →
      entryAt (w.shareMap m).entries a ≠ none

theorem World.Ready.mono (ready : w.Ready page S e) (inside : S ⊆ w.heap.live)
    (extends_ : w.Extends has S w') : w'.Ready page S e where
  start := ready.start
  stop := ready.stop
  low := ready.low
  noSubMap := ready.noSubMap
  plain plain := (ready.plain plain).mono inside extends_.heap
  window isMap := by
    obtain ⟨m, object, old, aligned, low, covered⟩ := ready.window isMap
    refine ⟨m, object, old.trans_le extends_.nextMap, aligned, low, fun a from_ to_ => ?_⟩
    obtain ⟨s, covers⟩ := ne_none_iff_exists'.mp (covered a from_ to_)
    obtain ⟨s', covers', -⟩ := extends_.entries m old a s covers
    exact ne_none_iff_exists'.mpr ⟨s', covers'⟩

/-- An address of an entry that refers to an existing map is located as before. -/
theorem World.Extends.locate (extends_ : w.Extends has S w')
    (old : e.isAMap = true → ∃ m, e.object = some m ∧ m < w.nextMap) {b : ℕ}
    (located : e.locate w a = some (s, b)) :
    ∃ s', e.locate w' a = some (s', b) ∧ Entry.Follows b s s' := by
  rw [Entry.locate] at located ⊢
  split_ifs at located ⊢ with isMap
  · obtain ⟨m, object, old⟩ := old isMap
    rw [object] at located ⊢
    obtain ⟨s₁, covers, same⟩ := map_eq_some_iff.mp located
    cases same
    obtain ⟨s', covers', follows⟩ := extends_.entries m old _ _ covers
    exact ⟨s', by rw [getD_some, covers']; rfl, follows⟩
  · cases located
    exact ⟨_, rfl, .refl _ _⟩

/-! ## Lists of a fork -/

theorem ListInv.resize {c : Counts} {l : List (Entry O)} {size : ℤ}
    (inv : ListInv lo hi { c with size := size } l) :
    ListInv lo hi { c with size := rangeSum l } l :=
  inv.of_size inv.size

/-- The segments lie below any bound of their ends. -/
theorem Segments.bound {l : List (Entry O)} {hi' : ℕ}
    (segments : Segments start stop lo l hi) (below : ∀ x ∈ l, x.stop ≤ hi') :
    Segments start stop lo l hi' := by
  induction l generalizing lo with
  | nil => trivial
  | cons e l ih =>
    obtain ⟨low, order, -, rest⟩ := segments
    exact ⟨low, order, below e mem_cons_self,
      ih rest fun x mem => below x (mem_cons_of_mem e mem)⟩

theorem VmMap.Linked.create (O : Type*) (lo hi : ℕ) : (vmMapCreate O lo hi).Linked where
  list := ⟨trivial, nodup_nil, forall_mem_nil _, rfl, rfl, forall_mem_nil _⟩
  hint := nofun

/-- An entry is linked at the end of a map. -/
theorem VmMap.Linked.linkLast (linked : map.Linked) (behind : ∀ x ∈ map.entries, x.stop ≤ e.start)
    (low : map.minOffset ≤ e.start) (order : e.start < e.stop) (high : e.stop ≤ map.maxOffset)
    (noSubMap : e.isSubMap = false) : (map.linkLast e).Linked where
  list := by
    have list := linked.list
    rw [← append_nil map.entries] at list
    exact (list.insert (d := e.withId map.counts.nextId) rfl (lastStop_le low behind) order high
      (forall_mem_nil _) noSubMap).resize
  hint := linked.hint.mono (by
    show map.entries.map Entry.id ⊆ (map.entries ++ [_]).map Entry.id
    rw [map_append]
    exact subset_append_left _ _)

/-- The window of a sharing map is cut off in front. -/
theorem VmMap.Linked.cut (linked : map.Linked) {start : ℕ}
    (covers : entryAt map.entries start = some e) (good : ∀ x ∈ map.entries, x.Good page heap S) (aligned : page ∣ start) :
    ∃ cut, map.clipStart start = cut ∧ cut.found = true ∧ cut.counts.size = map.counts.size ∧
      ListInv map.minOffset map.maxOffset { cut.counts with size := rangeSum map.entries }
        (cut.before ++ cut.rest) ∧
      Denotes (cut.before ++ cut.rest) cut.hint ∧ (∀ x ∈ cut.before, x.stop ≤ start) ∧
      (∀ x ∈ cut.rest, start ≤ x.start) ∧ (∀ x ∈ cut.before ++ cut.rest, x.Good page heap S) ∧
      ∀ a s, entryAt map.entries a = some s →
        ∃ s', entryAt (cut.before ++ cut.rest) a = some s' ∧ Entry.Follows a s s' := by
  obtain ⟨l₁, l₂, hint, eq, denotes, cut⟩ := linked.clipStart covers
  obtain ⟨-, low, high⟩ := covering_some covers
  have list := linked.list
  have earlier : ∀ x ∈ l₁, x.stop ≤ e.start := by
    rw [eq] at list
    intro x mem
    have := (segments_append.mp list.segments).1.stop_le_lastStop mem
    have := list.neighbours.1
    omega
  have later : ∀ x ∈ l₂, e.stop ≤ x.start := by
    rw [eq] at list
    exact list.neighbours.2.2.2.1
  refine ⟨_, rfl, ?_⟩
  rw [cut]
  split_ifs with clips
  · rw [eq] at list denotes good
    refine ⟨rfl, rfl, ?_, ?_, ?_, ?_, ?_, ?_⟩
    · rw [eq, ← append_cons]
      exact list.splitFront clips high
    · refine denotes.mono fun id inside => ?_
      simp only [map_append, map_cons, mem_append, mem_cons] at inside ⊢
      rcases inside with inside | here | inside
      · exact .inl (.inl inside)
      · exact .inr (.inl here)
      · exact .inr (.inr inside)
    · intro x mem
      rcases mem_append.mp mem with mem | last
      · exact (earlier x mem).trans low
      · obtain rfl := mem_singleton.mp last
        exact le_rfl
    · intro x mem
      rcases mem_cons.mp mem with rfl | mem
      · exact le_rfl
      · exact high.le.trans (later x mem)
    · intro x mem
      have goodHere := good e (mem_append_cons_self)
      rw [← append_cons] at mem
      rcases mem_append.mp mem with mem | mem
      · exact good x (mem_append_left _ mem)
      rcases mem_cons.mp mem with rfl | mem
      · exact (goodHere.front aligned high.le).withId _
      rcases mem_cons.mp mem with rfl | mem
      · exact goodHere.back aligned low
      · exact good x (mem_append_right _ (mem_cons_of_mem e mem))
    · intro a s covers
      rw [eq, entryAt, covering_append] at covers
      rw [← append_cons, entryAt, covering_append]
      cases first : covering Entry.start Entry.stop l₁ a with
      | some x =>
        rw [first, some_or] at covers
        exact ⟨s, covers, .refl a s⟩
      | none =>
        rw [first, none_or] at covers
        rw [none_or]
        by_cases inside : e.start ≤ a ∧ a < e.stop
        · rw [covering_cons_of_inside inside.1 inside.2] at covers
          cases covers
          by_cases side : a < start
          · refine ⟨_, covering_cons_of_inside
              (e := (e.front start).withId map.counts.nextId) inside.1 side _, ?_⟩
            exact ⟨rfl, rfl, fun marked => marked, rfl, rfl, rfl⟩
          refine ⟨e.back start, ?_,
            ⟨rfl, pageOffset_back low (not_lt.mp side), fun marked => marked, rfl, rfl, rfl⟩⟩
          refine (covering_cons_of_outside (e := (e.front start).withId map.counts.nextId)
            (fun both => side both.2) _).trans ?_
          exact covering_cons_of_inside (e := e.back start) (not_lt.mp side) inside.2 _
        · rw [covering_cons_of_outside inside] at covers
          refine ⟨s, ?_, .refl a s⟩
          refine (covering_cons_of_outside (e := (e.front start).withId map.counts.nextId)
            (fun both => inside ⟨both.1, lt_trans both.2 high⟩) _).trans ?_
          exact (covering_cons_of_outside (e := e.back start)
            (fun both => inside ⟨le_trans low both.1, both.2⟩) _).trans covers
  · rw [eq] at denotes
    refine
      ⟨rfl, rfl, by rw [← eq]; exact list, denotes, fun x mem => (earlier x mem).trans low,
      fun x mem => ?_, by rw [← eq]; exact good, fun a s covers => ⟨s, eq ▸ covers, .refl a s⟩⟩
    rcases mem_cons.mp mem with rfl | mem
    · exact not_lt.mp clips
    · exact high.le.trans (later x mem)

/-- The child is cut in front of its last entry. -/
theorem VmMap.Linked.cutLast (linked : child.Linked) (entries : child.entries = l ++ [d]) :
    ∃ hint, Denotes child.entries hint ∧ child.clipStart d.start =
      { found := true, counts := child.counts, hint := hint, before := l, rest := [d] } := by
  have list := linked.list
  rw [entries] at list
  obtain ⟨low, order, -⟩ := list.neighbours
  have covers : entryAt child.entries d.start = some d := by
    rw [entries]
    exact entryAt_of_mem list.segments (mem_append_cons_self) le_rfl order
  obtain ⟨l₁, l₂, hint, eq, denotes, cut⟩ := linked.clipStart covers
  rw [if_neg (lt_irrefl _)] at cut
  -- the entry stands in one place of the list
  have distinct := linked.list.distinct
  have first := cutAt_append (eq ▸ distinct)
  have second : cutAt (l ++ [d]) d.id = (l, [d]) := cutAt_append (entries ▸ distinct)
  rw [← eq, entries, second] at first
  obtain ⟨rfl, same⟩ := Prod.mk.inj first
  rw [← same] at cut
  exact ⟨hint, denotes, cut⟩

/-- The copy of a window of a sharing map into the last entry of the child. -/
theorem World.vmMapCopy_spec (has : P → ℕ → Bool) (pos : 0 < page) (good : w.Good page S)
    {m srcAddr : ℕ}
    (old : m < w.nextMap) (linked : child.Linked)
    (entries : child.entries = l ++ [d]) (plain : d.isAMap = false) (low : d.stop < 2 ^ 32)
    (alignedStart : page ∣ d.start) (alignedStop : page ∣ d.stop) (alignedSrc : page ∣ srcAddr)
    (lowSrc : srcAddr + (d.stop - d.start) < 2 ^ 32)
    (covered : ∀ a, srcAddr ≤ a → a < srcAddr + (d.stop - d.start) →
      entryAt (w.shareMap m).entries a ≠ none) :
    ∃ w' child' pieces,
      w.vmMapCopy page child m d.start (d.stop - d.start) srcAddr = some (w', child') ∧
      w'.Good page S ∧ w.Extends has S w' ∧ w'.nextMap = w.nextMap ∧
      child'.Linked ∧ child'.minOffset = child.minOffset ∧ child'.maxOffset = child.maxOffset ∧
      child'.entries = l ++ pieces ∧ rangeSum pieces = d.stop - d.start ∧
      (∀ x ∈ pieces, d.start ≤ x.start ∧ x.stop ≤ d.stop ∧ x.wiredCount = d.wiredCount) ∧
      ∀ b, d.start ≤ b → b < d.stop → ∃ s s' d',
        entryAt (w.shareMap m).entries (srcAddr + (b - d.start)) = some s ∧
        entryAt (w'.shareMap m).entries (srcAddr + (b - d.start)) = some s' ∧
        entryAt pieces b = some d' ∧
        CopiedAt page w'.heap S s s' (srcAddr + (b - d.start)) d d' b := by
  have list := linked.list
  rw [entries] at list
  obtain ⟨-, order, -, -, noSubMap⟩ := list.neighbours
  obtain ⟨e, covers⟩ := ne_none_iff_exists'.mp (covered srcAddr le_rfl (by omega))
  obtain ⟨cut, cutEq, found, size, cutList, hint, earlier, later, cutGood, follows⟩ :=
    (good.linked m old).cut covers (good.entries m old) alignedSrc
  obtain ⟨dstHint, denotes, dstCut⟩ := linked.cutLast entries
  -- what is located in the map is located in the window
  have inRest {a : ℕ} (high : srcAddr ≤ a) :
      entryAt (cut.before ++ cut.rest) a = entryAt cut.rest a :=
    entryAt_append_of_stop_le fun x mem => (earlier x mem).trans high
  obtain ⟨loop, looped, run⟩ : ∃ loop,
      copyLoop page (srcAddr + (d.stop - d.start)) d.stop (cut.rest.length + 1 + 1) srcAddr w.heap
        (cut.counts, cut.rest) (child.counts, [d]) = some loop ∧
      CopyRun page has S w.heap (cut.counts, cut.rest) child.counts d srcAddr loop :=
    copyLoop_spec pos good.heap good.inside
    (fun s mem => cutGood s (mem_append_right _ mem))
    (fun s mem => cutList.noSubMap s (mem_append_right _ mem))
    ((segments_append.mp cutList.segments).2.after later) (fun a low high => by
      obtain ⟨s, here⟩ := ne_none_iff_exists'.mp (covered a low high)
      obtain ⟨s', here', -⟩ := follows a s here
      rw [← inRest low, here']
      exact some_ne_none s')
    (Nat.dvd_add alignedSrc (Nat.dvd_sub alignedStop alignedStart)) alignedStart plain noSubMap
    (by omega) (by omega) (by omega)
  have share := run.srcList _ _ _ _ cutList
  have dst := run.dstList _ _ _ _ list
  have stops : ∀ x ∈ loop.dst.2, x.stop ≤ d.stop := by
    -- the list is in order below the end of the entry, too
    have bounded : ListInv child.minOffset d.stop
        { child.counts with size := rangeSum (l ++ [d]) } (l ++ [d]) := by
      refine
        ⟨Segments.bound list.segments fun x mem => ?_, list.distinct, list.old, list.nentries,
        list.size, list.noSubMap⟩
      obtain ⟨first, second⟩ := segments_append.mp list.segments
      rcases mem_append.mp mem with mem | last
      · exact (first.stop_le_lastStop mem).trans (second.1.trans order.le)
      · obtain rfl := mem_singleton.mp last
        exact le_rfl
    have inv := run.dstList _ _ _ _ bounded
    intro x mem
    exact (inv.segments.bounds (mem_append_right _ mem)).2.2
  have sum : rangeSum loop.dst.2 = d.stop - d.start := by
    have same : rangeSum (l ++ [d]) = rangeSum (l ++ loop.dst.2) := dst.size
    rw [rangeSum_append, rangeSum_append, rangeSum_cons] at same
    have nil : rangeSum ([] : List (Entry ℕ)) = 0 := rfl
    omega
  have newShare : ((w.shareMap m).withList cut.hint cut.before loop.src).Linked :=
    ⟨share.resize, hint.mono (by
      show (cut.before ++ cut.rest).map Entry.id ⊆ (cut.before ++ loop.src.2).map Entry.id
      rw [map_append, map_append]
      exact append_subset.mpr ⟨subset_append_left _ _,
        List.Subset.trans run.srcIds (subset_append_right _ _)⟩)⟩
  have newEntries {a : ℕ} {s : Entry ℕ} (covers : entryAt (w.shareMap m).entries a = some s) :
      ∃ s', entryAt (cut.before ++ loop.src.2) a = some s' ∧ Follows a s s' := by
    obtain ⟨s₁, covers₁, follows₁⟩ := follows a s covers
    rw [entryAt, covering_append] at covers₁
    rw [entryAt, covering_append]
    cases front : covering start stop cut.before a with
    | some x =>
      rw [front, some_or] at covers₁
      exact ⟨s₁, by rw [some_or, covers₁], follows₁⟩
    | none =>
      rw [front, none_or] at covers₁
      obtain ⟨s₂, covers₂, follows₂⟩ := run.follows a s₁ covers₁
      exact ⟨s₂, by rw [none_or]; exact covers₂, follows₁.trans follows₂⟩
  refine ⟨{ w with
      heap := loop.heap
      shareMap := Function.update w.shareMap m
        ((w.shareMap m).withList cut.hint cut.before loop.src) },
    child.withList dstHint l loop.dst, loop.dst.2, ?_, ⟨run.grows.wf,
      good.inside.trans run.grows.live, fun m' old' => ?_, fun m' old' s mem => ?_⟩,
    ⟨run.grows, le_rfl, fun m' old' => ?_, fun m' old' a s there => ?_⟩, rfl, ⟨?_, ?_⟩, rfl,
    rfl, rfl, sum, fun x mem => ?_, fun b from_ to_ => ?_⟩
  · rw [World.vmMapCopy, if_neg (by omega)]
    dsimp only
    rw [cutEq, dstCut, found]
    rw [if_neg (by simp), Nat.add_sub_cancel' order.le, length_singleton, looped]
    rfl
  · by_cases here : m' = m
    · subst here
      simp only [update_self]
      exact newShare
    · simp only [update_of_ne here]
      exact good.linked m' old'
  · by_cases here : m' = m
    · subst here
      simp only [update_self] at mem
      rcases mem_append.mp mem with mem | mem
      · exact (cutGood s (mem_append_left _ mem)).mono good.inside run.grows
      · exact run.good s mem
    · simp only [update_of_ne here] at mem
      exact (good.entries m' old' s mem).mono good.inside run.grows
  · by_cases here : m' = m
    · subst here
      simp only [update_self]
      exact run.size.trans size
    · simp only [update_of_ne here]
  · by_cases here : m' = m
    · subst here
      simp only [update_self]
      exact newEntries there
    · simp only [update_of_ne here]
      exact ⟨s, there, .refl a s⟩
  · exact dst.resize
  · refine denotes.mono ?_
    show child.entries.map Entry.id ⊆ (l ++ loop.dst.2).map Entry.id
    rw [entries, map_append, map_append, map_singleton]
    exact append_subset.mpr ⟨subset_append_left _ _,
      cons_subset.mpr ⟨mem_append_right _ run.dstIds, nil_subset _⟩⟩
  · obtain ⟨later, wired⟩ := run.members x mem
    exact ⟨later, stops x mem, wired⟩
  obtain ⟨s₁, s', d', covers₁, covers', copied, at_⟩ := run.copied b from_ to_
  have high : srcAddr ≤ srcAddr + (b - d.start) := Nat.le_add_right _ _
  obtain ⟨s, here⟩ := ne_none_iff_exists'.mp (covered _ high (by omega))
  obtain ⟨s₂, covers₂, follows₂⟩ := follows _ s here
  rw [inRest high, covers₁] at covers₂
  cases covers₂
  refine ⟨s, s', d', here, ?_, copied, ⟨follows₂.trans at_.follows, ?_, at_.maxProtection,
    at_.plain, at_.twin⟩⟩
  · simp only [update_self]
    exact (entryAt_append_of_stop_le fun x mem => (earlier x mem).trans high).trans covers'
  · rw [at_.protection, granted, granted, follows₂.wired, follows₂.protection]

/-! ## One entry -/

theorem entryAt_cons_of_inside (low : e.start ≤ a) (high : a < e.stop) (l : List (Entry ℕ)) :
    entryAt (e :: l) a = some e :=
  covering_cons_of_inside low high l

/-- The parent's entry keeps its place and its attributes. -/
structure Entry.Kept (e e' : Entry ℕ) : Prop where
  start : e'.start = e.start
  stop : e'.stop = e.stop
  wired : e'.wiredCount = e.wiredCount
  protection : e'.protection = e.protection
  maxProtection : e'.maxProtection = e.maxProtection

/-- What the fork makes of an address of an entry `e` of the parent, which becomes `e'`, where
`pieces` are entries of the child. -/
structure AddressForked (page : ℕ) (S : Finset ℕ) (w w' : World P D) (e e' : Entry ℕ)
    (pieces : List (Entry ℕ)) (a : ℕ) : Prop where
  parent : ∀ s b, e.locate w a = some (s, b) →
    ∃ s', e'.locate w' a = some (s', b) ∧ Follows b s s'
  share : e.inheritance = vmInheritShare → e'.isAMap = true ∧
    ∃ id, entryAt pieces a = some (e'.withId id)
  copy : e.inheritance = vmInheritCopy → ∃ s s' b d', e.locate w a = some (s, b) ∧
    e'.locate w' a = some (s', b) ∧ entryAt pieces a = some d' ∧
    CopiedAt page w'.heap S s s' b e.clone d' a
  none : e.inheritance ≠ vmInheritShare → e.inheritance ≠ vmInheritCopy → entryAt pieces a = none

/-- The bytes of an entry that the child gets. -/
def Entry.inherited (e : Entry ℕ) : ℤ :=
  if e.inheritance = vmInheritShare ∨ e.inheritance = vmInheritCopy then e.stop - e.start else 0

/-- What the fork does for an entry, where `pieces` are the new entries of the child. -/
structure ForkStep (page : ℕ) (has : P → ℕ → Bool) (S : Finset ℕ) (w : World P D) (child : VmMap ℕ)
    (e : Entry ℕ) (w' : World P D) (child' : VmMap ℕ) (e' : Entry ℕ) (pieces : List (Entry ℕ)) :
    Prop where
  good : w'.Good page S
  extends_ : w.Extends has S w'
  linked : child'.Linked
  minOffset : child'.minOffset = child.minOffset
  maxOffset : child'.maxOffset = child.maxOffset
  entries : child'.entries = child.entries ++ pieces
  kept : e.Kept e'
  object : e'.isAMap = true → ∃ m, e'.object = some m ∧ m < w'.nextMap
  sum : rangeSum pieces = e.inherited
  members : ∀ x ∈ pieces, e.start ≤ x.start ∧ x.stop ≤ e.stop ∧
    x.wiredCount = if e.inheritance = vmInheritShare then e.wiredCount else 0
  created : ∀ m, w.nextMap ≤ m → m < w'.nextMap →
    (w'.shareMap m).counts.size = 0 ∧ ∃ a s, entryAt (w'.shareMap m).entries a = some s
  creates : w.nextMap < w'.nextMap ↔ e.inheritance = vmInheritShare ∧ e.isAMap = false
  addresses : ∀ a, e.start ≤ a → a < e.stop → AddressForked page S w w' e e' pieces a

theorem vmInheritCopy_ne : vmInheritCopy ≠ vmInheritShare := by decide

theorem rangeSum_singleton (e : Entry O) : rangeSum [e] = e.stop - e.start := by
  rw [rangeSum_cons, rangeSum, map_nil, sum_nil, add_zero]

section ForkEntry

variable (good : w.Good page S) (ready : w.Ready page S e) (linked : child.Linked)

include good ready linked

/-- Nothing is done for an entry that is not inherited. -/
theorem forkEntry_none (notShare : e.inheritance ≠ vmInheritShare)
    (notCopy : e.inheritance ≠ vmInheritCopy) :
    ForkStep page has S w child e w child e [] := by
  refine ⟨good, .refl good.heap, linked, rfl, rfl, (append_nil _).symm,
    ⟨rfl, rfl, rfl, rfl, rfl⟩, fun isMap => ?_, ?_, forall_mem_nil _,
    fun m above below => by omega, ?_,
    fun a _ _ => ⟨fun s b located => ⟨s, located, .refl b s⟩, fun share => absurd share notShare,
      fun copy => absurd copy notCopy, fun _ _ => rfl⟩⟩
  · obtain ⟨m, object, old, -⟩ := ready.window isMap
    exact ⟨m, object, old⟩
  · rw [inherited, if_neg (not_or.mpr ⟨notShare, notCopy⟩)]
    rfl
  · exact ⟨fun impossible => absurd impossible (lt_irrefl _), fun both => absurd both.1 notShare⟩

variable (behind : ∀ x ∈ child.entries, x.stop ≤ e.start) (low : child.minOffset ≤ e.start)
  (order : e.start < e.stop) (high : e.stop ≤ child.maxOffset)

include behind low order high

/-- The entry refers to a sharing map already. -/
theorem forkEntry_shared (share : e.inheritance = vmInheritShare) (isMap : e.isAMap = true) :
    ForkStep page has S w child e w (child.linkLast e) e [e.withId child.counts.nextId] := by
  refine
    ⟨good, .refl good.heap, linked.linkLast behind low order high ready.noSubMap, rfl, rfl, rfl,
    ⟨rfl, rfl, rfl, rfl, rfl⟩, fun _ => ?_, ?_, fun x mem => ?_, fun m above below => ?_, ?_,
    fun a from_ to_ => ?_⟩
  · obtain ⟨m, object, old, -⟩ := ready.window isMap
    exact ⟨m, object, old⟩
  · rw [rangeSum_singleton, inherited, if_pos (.inl share)]
    rfl
  · obtain rfl := mem_singleton.mp mem
    rw [if_pos share]
    exact ⟨le_rfl, le_rfl, rfl⟩
  · omega
  · rw [isMap]
    simp
  · refine ⟨fun s b located => ⟨s, located, .refl b s⟩, fun _ => ⟨isMap, _,
      entryAt_cons_of_inside (e := e.withId child.counts.nextId) from_ to_ _⟩,
      fun copy => absurd (copy.symm.trans share) vmInheritCopy_ne, fun other => absurd share other⟩

/-- A sharing map is made for the entry. -/
theorem forkEntry_share (share : e.inheritance = vmInheritShare) (plain : e.isAMap = false) :
    ForkStep page has S w child e (w.share e).1 (child.linkLast (w.share e).2) (w.share e).2
      [(w.share e).2.withId child.counts.nextId] := by
  have new : ((w.share e).1.shareMap w.nextMap).entries = [e.withId 0] := by
    simp only [World.share, update_self]
    rfl
  have old {m : ℕ} (below : m < w.nextMap) : (w.share e).1.shareMap m = w.shareMap m :=
    update_of_ne below.ne _ _
  have newLinked : ((w.share e).1.shareMap w.nextMap).Linked := by
    simp only [World.share, update_self]
    have create := VmMap.Linked.create ℕ e.start e.stop
    exact VmMap.Linked.linkLast ⟨create.list, create.hint⟩ (forall_mem_nil _) le_rfl order le_rfl
      ready.noSubMap
  have newGood : (e.withId 0).Good page w.heap S := (ready.plain plain).withId 0
  -- the sharing map is addressed as the parent is
  have address {a : ℕ} (from_ : e.start ≤ a) (to_ : a < e.stop) :
      (w.share e).2.shareOffset a = a := by
    have := ready.low
    show ((BitVec.ofNat 32 e.start).toNat + (a - e.start)) % 2 ^ 32 = a
    rw [BitVec.toNat_ofNat]
    omega
  refine ⟨⟨good.heap, good.inside, fun m below => ?_, fun m below s mem => ?_⟩,
    ⟨.refl good.heap, Nat.le_succ _, fun m below => by rw [old below],
      fun m below a s covers => ⟨s, by rw [old below]; exact covers, .refl a s⟩⟩,
    linked.linkLast (e := (w.share e).2) behind low order high ready.noSubMap, rfl, rfl, rfl,
    ⟨rfl, rfl, rfl, rfl, rfl⟩, fun _ => ⟨w.nextMap, rfl, Nat.lt_succ_self _⟩, ?_,
    fun x mem => ?_,
    fun m above below => ?_, ?_, fun a from_ to_ => ?_⟩
  · rcases Nat.lt_succ_iff_lt_or_eq.mp below with below | rfl
    · rw [old below]
      exact good.linked m below
    · exact newLinked
  · rcases Nat.lt_succ_iff_lt_or_eq.mp below with below | rfl
    · rw [old below] at mem
      exact good.entries m below s mem
    · rw [new] at mem
      obtain rfl := mem_singleton.mp mem
      exact newGood
  · rw [rangeSum_singleton, inherited, if_pos (.inl share)]
    rfl
  · obtain rfl := mem_singleton.mp mem
    rw [if_pos share]
    exact ⟨le_rfl, le_rfl, rfl⟩
  · obtain rfl : m = w.nextMap := le_antisymm (Nat.lt_succ_iff.mp below) above
    refine ⟨?_, e.start, e.withId 0, ?_⟩
    · simp only [World.share, update_self]
      rfl
    · rw [new]
      exact covering_cons_of_inside (e := e.withId 0) le_rfl order _
  · exact ⟨fun _ => ⟨share, plain⟩, fun _ => Nat.lt_succ_self _⟩
  refine ⟨fun s b located => ?_, fun _ => ⟨rfl, _, entryAt_cons_of_inside
    (e := (w.share e).2.withId child.counts.nextId) from_ to_ _⟩,
    fun copy => absurd (copy.symm.trans share) vmInheritCopy_ne, fun other => absurd share other⟩
  rw [locate, plain, if_neg Bool.false_ne_true] at located
  cases located
  refine ⟨e.withId 0, ?_, ⟨rfl, rfl, fun marked => marked, rfl, rfl, rfl⟩⟩
  rw [locate, if_pos (show (w.share e).2.isAMap = true from rfl), address from_ to_]
  show (entryAt ((w.share e).1.shareMap w.nextMap).entries a).map _ = _
  rw [new, entryAt, covering_cons_of_inside (e := e.withId 0) from_ to_]
  rfl

/-- A copy of a window of a sharing map. -/
theorem forkEntry_copyWindow (has : P → ℕ → Bool) (pos : 0 < page)
    (copy : e.inheritance = vmInheritCopy) (isMap : e.isAMap = true) :
    ∃ w' child' pieces, w.vmMapCopy page (child.linkLast e.clone) (e.object.getD 0) e.start
        (e.stop - e.start) e.offset.toNat = some (w', child') ∧
      ForkStep page has S w child e w' child' e pieces := by
  obtain ⟨m, object, old, alignedSrc, lowSrc, covered⟩ := ready.window isMap
  obtain ⟨w', child', pieces, copied, good', extends_, nextMap, linked', min, max, entries, sum,
    members, at_⟩ := World.vmMapCopy_spec has pos good old (d := e.clone.withId child.counts.nextId)
      (linked.linkLast (e := e.clone) behind low order high ready.noSubMap) rfl rfl ready.low
      ready.start ready.stop alignedSrc lowSrc covered
  have notShare : e.inheritance ≠ vmInheritShare := fun share =>
    vmInheritCopy_ne (copy.symm.trans share)
  refine ⟨w', child', pieces, ?_, good', extends_, linked', min, max, entries,
    ⟨rfl, rfl, rfl, rfl, rfl⟩, fun _ => ⟨m, object, nextMap ▸ old⟩, ?_, fun x mem => ?_,
    fun m above below => by omega, ?_, fun a from_ to_ => ?_⟩
  · rw [object]
    exact copied
  · rw [inherited, if_pos (.inr copy)]
    exact sum
  · rw [if_neg notShare]
    exact members x mem
  · rw [nextMap, isMap]
    simp
  have shareOffset : e.shareOffset a = e.offset.toNat + (a - e.start) :=
    Nat.mod_eq_of_lt (by omega)
  have locate (w : World P D) : e.locate w a = (entryAt (w.shareMap m).entries
      (e.offset.toNat + (a - e.start))).map fun s => (s, e.offset.toNat + (a - e.start)) := by
    rw [locate, if_pos isMap, object, getD_some, shareOffset]
  obtain ⟨s, s', d', covers, covers', piece, copiedAt⟩ := at_ a from_ to_
  change entryAt _ (e.offset.toNat + (a - e.start)) = some s at covers
  change entryAt _ (e.offset.toNat + (a - e.start)) = some s' at covers'
  refine ⟨fun s b located => ?_, fun share => absurd share notShare, fun _ => ⟨s, s',
    e.offset.toNat + (a - e.start), d', ?_, ?_, piece,
    ⟨copiedAt.follows, copiedAt.protection, copiedAt.maxProtection, copiedAt.plain,
      copiedAt.twin⟩⟩, fun _ other => absurd copy other⟩
  · exact extends_.locate (fun _ => ⟨m, object, old⟩) located
  · rw [locate, covers]
    rfl
  · rw [locate, covers']
    rfl

/-- A copy of a memory object. -/
theorem forkEntry_copyObject (has : P → ℕ → Bool) (pos : 0 < page)
    (copy : e.inheritance = vmInheritCopy) (plain : e.isAMap = false) :
    ∃ copied : EntryCopy P D,
      vmMapCopyEntry page w.heap e (e.clone.withId child.counts.nextId) = some copied ∧
      ForkStep page has S w child e { w with heap := copied.heap }
        ((child.linkLast e.clone).changeLast copied.dst) copied.src [copied.dst] := by
  have goodEntry := ready.plain plain
  obtain ⟨copied, eq, grows, marked, copyOf, twins⟩ := vmMapCopyEntry_spec has
    (d := e.clone.withId child.counts.nextId) pos good.heap good.inside goodEntry ready.noSubMap
    ready.noSubMap rfl
  have notShare : e.inheritance ≠ vmInheritShare := fun share =>
    vmInheritCopy_ne (copy.symm.trans share)
  have entries : (child.linkLast e.clone).entries.dropLast ++ [copied.dst] =
      child.entries ++ [copied.dst] := by
    show (child.entries ++ [_]).dropLast ++ _ = _
    rw [dropLast_concat]
  have new := linked.linkLast (e := e.clone) behind low order high ready.noSubMap
  have plain' : copied.src.isAMap = false := (marked.follows 0).plain.trans plain
  refine ⟨copied, eq, good.withHeap grows, .withHeap grows, ⟨?_, ?_⟩, rfl, rfl, entries, ?_, ?_, ?_,
    fun x mem => ?_, fun m above below => absurd above (not_le.mpr below), ?_,
    fun a from_ to_ => ?_⟩
  · have changed : ListInv _ _ _ (child.entries ++ [copied.dst]) :=
      ListInv.change new.list copyOf.id copyOf.start copyOf.stop
        (copyOf.noSubMap.trans ready.noSubMap)
    have list := changed.resize
    rw [← entries] at list
    exact list
  · refine Denotes.mono (l := (child.linkLast e.clone).entries) new.hint ?_
    show _ ⊆ List.map Entry.id ((child.linkLast e.clone).entries.dropLast ++ [copied.dst])
    rw [entries, map_append, map_singleton, copyOf.id]
    show List.map Entry.id (child.entries ++ [_]) ⊆ _
    rw [map_append]
    exact List.Subset.refl _
  · obtain ⟨needsCopy, copyOnWrite, src, -⟩ := marked
    rw [src]
    exact ⟨rfl, rfl, rfl, rfl, rfl⟩
  · rw [plain']
    exact fun impossible => absurd impossible Bool.false_ne_true
  · rw [rangeSum_singleton, inherited, if_pos (.inr copy), copyOf.start, copyOf.stop]
    rfl
  · obtain rfl := mem_singleton.mp mem
    rw [if_neg notShare, copyOf.wired, copyOf.start, copyOf.stop]
    exact ⟨le_rfl, le_rfl, rfl⟩
  · exact ⟨fun impossible => absurd impossible (lt_irrefl _), fun both => absurd both.1 notShare⟩
  have located : e.locate w a = some (e, a) := by
    rw [locate, plain, if_neg Bool.false_ne_true]
  have located' : copied.src.locate { w with heap := copied.heap } a = some (copied.src, a) := by
    rw [locate, plain', if_neg Bool.false_ne_true]
  have piece : entryAt [copied.dst] a = some copied.dst :=
    entryAt_cons_of_inside (copyOf.start.trans_le from_) (to_.trans_eq copyOf.stop.symm) []
  refine ⟨fun s b there => ?_, fun share => absurd share notShare, fun _ => ⟨e, copied.src, a,
    copied.dst, located, located', piece, ⟨marked.follows a, copyOf.protection,
      copyOf.maxProtection, copyOf.plain, fun aligned => ?_⟩⟩, fun _ other => absurd copy other⟩
  · cases located.symm.trans there
    exact ⟨copied.src, located', marked.follows a⟩
  have twin := twins (a - e.start) (Nat.dvd_sub aligned ready.start) (by omega)
  rw [Nat.add_sub_cancel' from_] at twin
  have same : (e.clone.withId child.counts.nextId).start + (a - e.start) = a :=
    Nat.add_sub_cancel' from_
  rw [same] at twin
  exact twin

theorem forkEntry_spec (has : P → ℕ → Bool) (pos : 0 < page) :
    ∃ w' child' e' pieces, forkEntry page w child e = some (w', child', e') ∧
      ForkStep page has S w child e w' child' e' pieces := by
  rw [forkEntry, ready.noSubMap, if_neg Bool.false_ne_true]
  by_cases share : e.inheritance = vmInheritShare
  · rw [if_pos share]
    by_cases isMap : e.isAMap = true
    · rw [if_pos isMap]
      exact ⟨_, _, _, _, rfl, forkEntry_shared good ready linked behind low order high share isMap⟩
    · rw [if_neg isMap]
      exact ⟨_, _, _, _, rfl, forkEntry_share good ready linked behind low order high share
        (Bool.eq_false_of_not_eq_true isMap)⟩
  rw [if_neg share]
  by_cases copy : e.inheritance = vmInheritCopy
  · rw [if_pos copy]
    by_cases isMap : e.isAMap = true
    · obtain ⟨w', child', pieces, copied, step⟩ := forkEntry_copyWindow good ready linked behind
        low order high has pos copy isMap
      rw [if_pos isMap, copied]
      exact ⟨w', child', e, pieces, rfl, step⟩
    · obtain ⟨copied, eq, step⟩ := forkEntry_copyObject good ready linked behind low
        order high has pos copy (Bool.eq_false_of_not_eq_true isMap)
      rw [if_neg isMap, eq]
      exact ⟨_, _, _, _, rfl, step⟩
  · rw [if_neg copy]
    exact ⟨_, _, _, _, rfl, forkEntry_none good ready linked share copy⟩

end ForkEntry

/-! ## All entries -/

theorem World.Ready.located (ready : w.Ready page S e) (from_ : e.start ≤ a) (to_ : a < e.stop) :
    ∃ s b, e.locate w a = some (s, b) := by
  rw [locate]
  split_ifs with isMap
  · obtain ⟨m, object, -, -, low, covered⟩ := ready.window isMap
    have shareOffset : e.shareOffset a = e.offset.toNat + (a - e.start) :=
      Nat.mod_eq_of_lt (by omega)
    obtain ⟨s, covers⟩ := ne_none_iff_exists'.mp (covered (e.shareOffset a)
      (by rw [shareOffset]; omega) (by rw [shareOffset]; omega))
    exact ⟨s, e.shareOffset a, by rw [object, getD_some, covers]; rfl⟩
  · exact ⟨e, a, rfl⟩

theorem World.Ready.old (ready : w.Ready page S e) (isMap : e.isAMap = true) :
    ∃ m, e.object = some m ∧ m < w.nextMap := by
  obtain ⟨m, object, old, -⟩ := ready.window isMap
  exact ⟨m, object, old⟩

theorem CopiedAt.mono {heap' : Heap P D} {s' s'' d' : Entry ℕ} {b : ℕ}
    (copied : CopiedAt page heap S s s' b d d' a) (grows : heap.Grows has S heap')
    (follows : Follows b s' s'') : CopiedAt page heap' S s s'' b d d' a where
  follows := copied.follows.trans follows
  protection := copied.protection
  maxProtection := copied.maxProtection
  plain := copied.plain
  twin aligned := ((copied.twin aligned).follow follows).mono grows

theorem entryAt_append_of_le_start (later : ∀ x ∈ more, a < x.start) :
    entryAt (l ++ more) a = entryAt l a := by
  rw [entryAt, covering_append, covering_of_lt_start later, or_none]
  rfl

/-- The entries behind an address do not change what was done for it. -/
theorem AddressForked.later {w₁ w₂ : World P D}
    (forked : AddressForked page S w w₁ e e' pieces a) (extends_ : w₁.Extends has S w₂)
    (object : e'.isAMap = true → ∃ m, e'.object = some m ∧ m < w₁.nextMap)
    (behind : ∀ x ∈ more, a < x.start) :
    AddressForked page S w w₂ e e' (pieces ++ more) a where
  parent s b located := by
    obtain ⟨s', located', follows⟩ := forked.parent s b located
    obtain ⟨s'', located'', follows'⟩ := extends_.locate object located'
    exact ⟨s'', located'', follows.trans follows'⟩
  share inheritance := by
    rw [entryAt_append_of_le_start behind]
    exact forked.share inheritance
  copy inheritance := by
    obtain ⟨s, s', b, d', located, located', piece, copied⟩ := forked.copy inheritance
    obtain ⟨s'', located'', follows⟩ := extends_.locate object located'
    refine ⟨s, s'', b, d', located, located'', ?_, copied.mono extends_.heap follows⟩
    rw [entryAt_append_of_le_start behind]
    exact piece
  none notShare notCopy := by
    rw [entryAt_append_of_le_start behind]
    exact forked.none notShare notCopy

/-- Nor do the entries in front of it. -/
theorem AddressForked.earlier {w₁ w₂ : World P D} {front : List (Entry ℕ)}
    (forked : AddressForked page S w₁ w₂ e e' pieces a) (extends_ : w.Extends has S w₁)
    (ready : w.Ready page S e) (from_ : e.start ≤ a) (to_ : a < e.stop)
    (before_ : ∀ x ∈ front, x.stop ≤ a) :
    AddressForked page S w w₂ e e' (front ++ pieces) a where
  parent s b located := by
    obtain ⟨s', located', follows⟩ := extends_.locate ready.old located
    obtain ⟨s'', located'', follows'⟩ := forked.parent s' b located'
    exact ⟨s'', located'', follows.trans follows'⟩
  share inheritance := by
    rw [entryAt_append_of_stop_le before_]
    exact forked.share inheritance
  copy inheritance := by
    obtain ⟨s₁, s', b, d', located₁, located', piece, copied⟩ := forked.copy inheritance
    obtain ⟨s, b', located⟩ := ready.located from_ to_
    obtain ⟨s₂, located₂, follows⟩ := extends_.locate ready.old located
    cases located₁.symm.trans located₂
    refine ⟨s, s', b, d', located, located', ?_, ⟨follows.trans copied.follows, ?_,
      copied.maxProtection, copied.plain, copied.twin⟩⟩
    · rw [entryAt_append_of_stop_le before_]
      exact piece
    · rw [copied.protection, granted, granted, follows.wired, follows.protection]
  none notShare notCopy := by
    rw [entryAt_append_of_stop_le before_]
    exact forked.none notShare notCopy

/-- What the loop does for a list of entries of the parent, where `added` are the new entries of the
child. -/
structure ForkRun (page : ℕ) (has : P → ℕ → Bool) (S : Finset ℕ) (w : World P D) (child : VmMap ℕ)
    (l : List (Entry ℕ)) (loop : Forking P D) (added : List (Entry ℕ)) : Prop where
  good : loop.world.Good page S
  extends_ : w.Extends has S loop.world
  linked : loop.child.Linked
  entries : loop.child.entries = child.entries ++ added
  sum : rangeSum added = (l.map inherited).sum
  members : ∀ x ∈ added, ∃ e ∈ l, e.start ≤ x.start ∧ x.stop ≤ e.stop ∧
    x.wiredCount = if e.inheritance = vmInheritShare then e.wiredCount else 0
  created : ∀ m, w.nextMap ≤ m → m < loop.world.nextMap → (loop.world.shareMap m).counts.size = 0 ∧
      ∃ a s, entryAt (loop.world.shareMap m).entries a = some s
  creates : w.nextMap < loop.world.nextMap ↔
    ∃ e ∈ l, e.inheritance = vmInheritShare ∧ e.isAMap = false
  parent : List.Forall₂ Kept l loop.parent
  addresses : ∀ e ∈ l, ∀ a, e.start ≤ a → a < e.stop → ∃ e', entryAt loop.parent a = some e' ∧
    e.Kept e' ∧ (e'.isAMap = true → ∃ m, e'.object = some m ∧ m < loop.world.nextMap) ∧
    AddressForked page S w loop.world e e' added a

theorem forkLoop_spec (has : P → ℕ → Bool) (pos : 0 < page) (good : w.Good page S)
    (ready : ∀ e ∈ l, w.Ready page S e) (linked : child.Linked)
    (behind : ∀ x ∈ child.entries, x.stop ≤ lo) (low : child.minOffset ≤ lo)
    (segments : Segments start stop lo l child.maxOffset) :
    ∃ loop added, forkLoop page w child l = some loop ∧
      ForkRun page has S w child l loop added := by
  induction l generalizing w child lo with
  | nil =>
    exact ⟨_, [], rfl, good, .refl good.heap, linked, (append_nil _).symm, rfl,
      forall_mem_nil _, fun m above below => absurd above (not_le.mpr below),
      ⟨fun impossible => absurd impossible (lt_irrefl _), fun ⟨e, mem, _⟩ => by cases mem⟩,
      .nil, forall_mem_nil _⟩
  | cons e l ih =>
    obtain ⟨first, order, high, later⟩ := segments
    have readyHere := ready e mem_cons_self
    obtain ⟨w₁, child₁, e', pieces, stepped, step⟩ := forkEntry_spec good readyHere linked
      (fun x mem => (behind x mem).trans first) (low.trans first) order high has pos
    have readyRest : ∀ d ∈ l, w.Ready page S d := fun d mem =>
      ready d (mem_cons_of_mem e mem)
    have next : ∀ x ∈ child₁.entries, x.stop ≤ e.stop := by
      intro x mem
      rw [step.entries] at mem
      rcases mem_append.mp mem with old | new
      · exact (behind x old).trans (first.trans order.le)
      · exact (step.members x new).2.1
    obtain ⟨loop, added, looped, run⟩ := ih step.good
      (fun d mem => (readyRest d mem).mono good.inside step.extends_) step.linked next
      (by rw [step.minOffset]; exact low.trans (first.trans order.le))
      (by rw [step.maxOffset]; exact later)
    have bounds : ∀ d ∈ l, e.stop ≤ d.start := fun d mem => (later.bounds mem).1
    refine ⟨{ loop with parent := e' :: loop.parent }, pieces ++ added, ?_, run.good,
      step.extends_.trans run.extends_, run.linked, ?_, ?_, fun x mem => ?_,
      fun m above below => ?_, ?_, .cons step.kept run.parent, fun d mem a from_ to_ => ?_⟩
    · rw [forkLoop, stepped, bind_some]
      rw [looped]
      rfl
    · rw [run.entries, step.entries, append_assoc]
    · rw [rangeSum_append, step.sum, run.sum, map_cons, sum_cons]
    · rcases mem_append.mp mem with here | there
      · exact ⟨e, mem_cons_self, step.members x here⟩
      · obtain ⟨d, inside, bounds⟩ := run.members x there
        exact ⟨d, mem_cons_of_mem e inside, bounds⟩
    · by_cases here : m < w₁.nextMap
      · obtain ⟨size, a, s, covers⟩ := step.created m above here
        obtain ⟨s', covers', -⟩ := run.extends_.entries m here a s covers
        exact ⟨(run.extends_.size m here).trans size, a, s', covers'⟩
      · exact run.created m (not_lt.mp here) below
    · have grows := step.extends_.nextMap
      have grows' := run.extends_.nextMap
      constructor
      · intro more
        by_cases here : w.nextMap < w₁.nextMap
        · exact ⟨e, mem_cons_self, step.creates.mp here⟩
        obtain ⟨d, inside, share⟩ := run.creates.mp (show w₁.nextMap < loop.world.nextMap by
          have : w.nextMap < loop.world.nextMap := more
          omega)
        exact ⟨d, mem_cons_of_mem e inside, share⟩
      · rintro ⟨d, mem, share⟩
        rcases mem_cons.mp mem with rfl | inside
        · exact lt_of_lt_of_le (step.creates.mpr share) grows'
        · exact lt_of_le_of_lt grows (run.creates.mpr ⟨d, inside, share⟩)
    · rcases mem_cons.mp mem with rfl | inside
      · refine ⟨e', ?_, step.kept, fun isMap => ?_,
          (step.addresses a from_ to_).later run.extends_ step.object fun x mem => ?_⟩
        · exact entryAt_cons_of_inside (step.kept.start.trans_le from_)
            (to_.trans_eq step.kept.stop.symm) _
        · obtain ⟨m, object, old⟩ := step.object isMap
          exact ⟨m, object, old.trans_le run.extends_.nextMap⟩
        · obtain ⟨c, inside, start, -⟩ := run.members x mem
          have := bounds c inside
          omega
      · have := bounds d inside
        obtain ⟨d', covers, kept, object, forked⟩ := run.addresses d inside a from_ to_
        refine ⟨d', ?_, kept, object, forked.earlier step.extends_ (readyRest d inside) from_ to_
          fun x mem => ?_⟩
        · refine (covering_cons_of_outside (e := e') (fun both => ?_) _).trans covers
          have := both.2.trans_eq step.kept.stop
          omega
        · have := (step.members x mem).2.1
          omega

end Worlds

end Darwin.Vm.Map
