import Darwin.Vm.Map.Copy

/-!
# What `vm_map_protect` grants

The second pass of `vm_map_protect` hands each new protection on to the physical map, by calls of
`pmap_protect`.  Data that is copy-on-write must not become writable there: the protection of a call
is masked.  An entry of the map is masked by the first entry of the range, whichever it is.  For an
entry that refers to a sharing map there is a call for each entry of the sharing map from the one
that contains or precedes the start of its window on, up to the end of the window or of the entry,
whichever is higher.

## Main results

* `vmMapProtectPmap_entries` - the entries change as in `vmMapProtect`
* `vmMapProtect_grants` - when no call grants more than it may
-/

namespace Darwin.Vm.Map

open List Darwin.Lib Option VmMap

variable {O : Type*}

/-! ## The calls -/

/-- A call of `pmap_protect` on the physical map of the address map. -/
structure PmapProtect where
  start : ℕ
  stop : ℕ
  prot : BitVec 32

/-- `MASK`. -/
def Entry.mask (e : Entry O) : BitVec 32 := if e.copyOnWrite then ~~~vmProtWrite else vmProtAll

/-- `share_end`: where the window of an entry on its sharing map ends. -/
def Entry.shareEnd (current : Entry O) : ℕ :=
  (current.offset.toNat + (current.stop - current.start)) % 2 ^ 32

/-- The call for an entry of a sharing map.  Its end is not below that of the window. -/
def shareCall (current share : Entry O) : PmapProtect where
  start := (max share.start current.offset.toNat - current.offset.toNat + current.start) % 2 ^ 32
  stop := (max share.stop current.shareEnd - current.offset.toNat + current.start) % 2 ^ 32
  prot := current.protection &&& share.mask

/-- The loop over the entries of a sharing map. -/
def shareCalls (current : Entry O) : List (Entry O) → List PmapProtect
  | [] => []
  | share :: rest =>
    if share.start < current.shareEnd then shareCall current share :: shareCalls current rest
    else []

section Loop

variable [DecidableEq O]

/-- The calls for an entry whose protection has changed, and the sharing maps with the hint of the
lookup.  `first` is the variable `entry`, the first entry of the range. -/
def entryCalls (first current : Entry O) (shares : Option O → VmMap O) :
    (Option O → VmMap O) × List PmapProtect :=
  if current.isAMap then
    let lookup := (shares current.object).vmMapLookupEntry current.offset.toNat
    (Function.update shares current.object lookup.2.2,
      match lookup.2.1 with
      | none => []
      | some id => shareCalls current (cutAt (shares current.object).entries id).2)
  else (shares, [⟨current.start, current.stop, current.protection &&& first.mask⟩])

/-- The second pass of `vm_map_protect` over an entry that has been clipped: the sharing maps, the
calls and the entry. -/
def protectEntry (newProt : BitVec 32) (setMax : Bool) (first : Entry O)
    (shares : Option O → VmMap O) (current : Entry O) :
    (Option O → VmMap O) × List PmapProtect :=
  if (current.protect newProt setMax).protection ≠ current.protection then
    entryCalls first (current.protect newProt setMax) shares
  else (shares, [])

/-- The second pass of `vm_map_protect`: the sharing maps, the calls, the counters and the list. -/
def protectLoop (newProt : BitVec 32) (setMax : Bool) (stop : ℕ) (first : Entry O) :
    (Option O → VmMap O) → Counts → List (Entry O) →
      (Option O → VmMap O) × List PmapProtect × Counts × List (Entry O)
  | shares, counts, [] => (shares, [], counts, [])
  | shares, counts, e :: rest =>
    if e.start < stop then
      if stop < e.stop then
        let result := protectEntry newProt setMax first shares (e.front stop)
        (result.1, result.2,
          { counts with nentries := counts.nentries + 1, nextId := counts.nextId + 1 },
          (e.front stop).protect newProt setMax :: (e.back stop).withId counts.nextId :: rest)
      else
        let result := protectEntry newProt setMax first shares e
        let tail := protectLoop newProt setMax stop first result.1 counts rest
        (tail.1, result.2 ++ tail.2.1, tail.2.2.1, e.protect newProt setMax :: tail.2.2.2)
    else (shares, [], counts, e :: rest)

/-- `vm_map_protect` with the physical map and the sharing maps: the return code, the map, the
sharing maps and the calls of `pmap_protect`. -/
def VmMap.vmMapProtectPmap (map : VmMap O) (shares : Option O → VmMap O) (start stop : ℕ)
    (newProt : BitVec 32) (setMax : Bool) :
    KernReturn × VmMap O × (Option O → VmMap O) × List PmapProtect :=
  let range := map.rangeCheck start stop
  let cut := map.clipStart range.1
  match checkProtection newProt range.2 cut.rest, cut.rest with
  | .success, first :: _ =>
    let result := protectLoop newProt setMax range.2 first shares cut.counts cut.rest
    (.success, map.withList cut.hint cut.before result.2.2, result.1, result.2.1)
  | result, _ => (result, map.withList cut.hint cut.before (cut.counts, cut.rest), shares, [])

end Loop

/-! ## The entries of a sharing map that are visited -/

/-- A sharing map is well formed: it is one but for not being a main map. -/
def VmMap.ShareInv (map : VmMap O) : Prop := Inv { map with isMainMap := true }

/-- The entries from the one that contains or precedes an address on; none, if that is the
header. -/
def visited (l : List (Entry O)) (address : ℕ) : List (Entry O) :=
  let before := l.takeWhile fun e => e.stop ≤ address
  let rest := l.dropWhile fun e => e.stop ≤ address
  if rest.head?.any fun e => e.start ≤ address then rest
  else
    match before.getLast? with
    | none => []
    | some e => e :: rest

theorem lookup_main (map : VmMap O) (main : Bool) (address : ℕ) :
    (vmMapLookupEntry { map with isMainMap := main } address).2.1 =
        (map.vmMapLookupEntry address).2.1 ∧
      (vmMapLookupEntry { map with isMainMap := main } address).2.2 =
        { (map.vmMapLookupEntry address).2.2 with isMainMap := main } := by
  rw [vmMapLookupEntry, vmMapLookupEntry]
  cases (cutHint map.entries map.hint).2 with
  | nil => exact ⟨rfl, rfl⟩
  | cons cur rest =>
    dsimp only
    split_ifs <;> exact ⟨rfl, rfl⟩

/-- What the lookup in a sharing map makes the loop visit, and what it leaves of the map. -/
theorem VmMap.ShareInv.lookup {map : VmMap O} (inv : map.ShareInv) (address : ℕ) :
    (map.vmMapLookupEntry address).2.2.ShareInv ∧
      (map.vmMapLookupEntry address).2.2.entries = map.entries ∧
      (match (map.vmMapLookupEntry address).2.1 with
        | none => []
        | some id => (cutAt map.entries id).2) = visited map.entries address := by
  obtain ⟨answers, hint, changed, denotes, -⟩ := Inv.lookup inv address
  obtain ⟨same, sameMap⟩ := lookup_main map true address
  rw [changed] at sameMap
  have entries : (map.vmMapLookupEntry address).2.2.entries = map.entries :=
    (congrArg entries sameMap).symm
  refine ⟨?_, entries, ?_⟩
  · rw [ShareInv, ← sameMap]
    exact Inv.withHint inv denotes
  rw [← same]
  have distinct := inv.list.distinct
  obtain ⟨before, rest, eq, earlier, outcome⟩ := answers
  change map.entries = before ++ rest at eq
  change (map.entries.map Entry.id).Nodup at distinct
  -- where the list is cut
  have cut (later : ∀ e ∈ rest.head?, address < e.stop) :
      map.entries.takeWhile (fun e => decide (e.stop ≤ address)) = before ∧
        map.entries.dropWhile (fun e => decide (e.stop ≤ address)) = rest := by
    have front : ∀ e ∈ before, decide (e.stop ≤ address) = true := fun e mem =>
      decide_eq_true (earlier e mem)
    rw [eq, takeWhile_append_of_pos front, dropWhile_append_of_pos front]
    cases rest with
    | nil => simp
    | cons e rest =>
      have := later e rfl
      rw [takeWhile_cons, dropWhile_cons, decide_eq_false (by omega)]
      simp
  rcases outcome with ⟨-, here, later⟩ | ⟨-, e, rest', rfl, low, high, here⟩
  · have behind : ∀ e ∈ rest.head?, address < e.start := fun e head => by
      cases rest with
      | nil => cases head
      | cons d rest =>
        obtain rfl := some.inj head
        exact later d mem_cons_self
    obtain ⟨take, drop⟩ := cut fun e head => by
      have := behind e head
      have order := (inv.list.segments.bounds (show e ∈ map.entries by
        rw [eq]
        exact mem_append_right _ (mem_of_mem_head? head))).2.1
      omega
    rw [here, visited, take, drop, if_neg]
    · rcases eq_nil_or_concat' before with rfl | ⟨l, e, rfl⟩
      · rfl
      rw [eq, ← append_cons] at distinct
      rw [lastId_concat, List.getLast?_concat, eq, ← append_cons]
      dsimp only
      rw [cutAt_append distinct]
    · intro found
      cases rest with
      | nil => cases found
      | cons d rest =>
        have := behind d rfl
        have reached : d.start ≤ address := by simpa using found
        omega
  · obtain ⟨take, drop⟩ := cut fun d head => by
      cases head
      exact high
    rw [here, visited, take, drop, if_pos (by simpa using low), eq]
    rw [eq] at distinct
    dsimp only
    rw [cutAt_append distinct]

/-! ## All calls of the loop -/

/-- The part of an entry in front of the end of a range. -/
def Entry.clipBack (stop : ℕ) (e : Entry O) : Entry O := if stop < e.stop then e.front stop else e

/-- The calls for an entry whose protection has changed, given the sharing maps. -/
def callsOf (shares : Option O → VmMap O) (first current : Entry O) : List PmapProtect :=
  if current.isAMap then
    shareCalls current (visited (shares current.object).entries current.offset.toNat)
  else [⟨current.start, current.stop, current.protection &&& first.mask⟩]

/-- The sharing maps have the same entries as before, whatever lookups there have been. -/
def SameEntries (shares shares' : Option O → VmMap O) : Prop :=
  ∀ object, (shares' object).ShareInv ∧ (shares' object).entries = (shares object).entries

section Calls

variable [DecidableEq O] {newProt : BitVec 32} {setMax : Bool} {stop : ℕ} {first : Entry O}
  {shares shares' : Option O → VmMap O}

theorem entryCalls_eq (same : SameEntries shares shares') (current : Entry O) :
    SameEntries shares (entryCalls first current shares').1 ∧
      (entryCalls first current shares').2 = callsOf shares first current := by
  rw [entryCalls, callsOf]
  split_ifs with shared
  · obtain ⟨inv, entries⟩ := same current.object
    obtain ⟨kept, sameEntries, visits⟩ := inv.lookup current.offset.toNat
    refine ⟨fun object => ?_, ?_⟩
    · dsimp only
      by_cases here : object = current.object
      · subst here
        rw [Function.update_self]
        exact ⟨kept, sameEntries.trans entries⟩
      · rw [Function.update_of_ne here]
        exact same object
    · rw [← entries, ← visits]
      dsimp only
      cases ((shares' current.object).vmMapLookupEntry current.offset.toNat).2.1 <;> rfl
  · exact ⟨same, rfl⟩

theorem protectEntry_eq (newProt : BitVec 32) (setMax : Bool) (first : Entry O)
    (same : SameEntries shares shares') (current : Entry O) :
    SameEntries shares (protectEntry newProt setMax first shares' current).1 ∧
      (protectEntry newProt setMax first shares' current).2 =
        if (current.protect newProt setMax).protection ≠ current.protection then
          callsOf shares first (current.protect newProt setMax)
        else [] := by
  rw [protectEntry]
  split_ifs
  · exact entryCalls_eq same _
  · exact ⟨same, rfl⟩

/-- The calls of the loop are those for the entries of the range whose protection changes. -/
theorem protectLoop_calls {lo hi : ℕ} {l : List (Entry O)}
    (segments : Segments Entry.start Entry.stop lo l hi) (counts : Counts)
    (same : SameEntries shares shares') (fine : PmapProtect → Prop) :
    (∀ call ∈ (protectLoop newProt setMax stop first shares' counts l).2.1, fine call) ↔
      ∀ e ∈ l, e.start < stop →
        ((e.clipBack stop).protect newProt setMax).protection ≠ e.protection →
        ∀ call ∈ callsOf shares first ((e.clipBack stop).protect newProt setMax), fine call := by
  induction l generalizing shares' lo with
  | nil => simp [protectLoop]
  | cons e rest ih =>
    obtain ⟨-, order, -, later⟩ := segments
    have behind (reaches : stop ≤ e.stop) : ∀ d ∈ rest, ¬ d.start < stop := fun d mem => by
      have := (later.bounds mem).1
      omega
    rw [protectLoop, forall_mem_cons]
    by_cases inRange : e.start < stop
    · rw [if_pos inRange]
      by_cases past : stop < e.stop
      · -- the loop ends with this entry
        have clip : e.clipBack stop = e.front stop := if_pos past
        obtain ⟨-, calls⟩ := protectEntry_eq newProt setMax first same (e.front stop)
        rw [if_pos past, clip]
        dsimp only
        rw [calls]
        have old : (e.front stop).protection = e.protection := rfl
        constructor
        · intro all
          refine ⟨fun _ changes => ?_, fun d mem low => absurd low (behind past.le d mem)⟩
          rw [if_pos (by rw [old]; exact changes)] at all
          exact all
        · rintro ⟨all, -⟩
          split_ifs with changes
          · exact all inRange (by rw [← old]; exact changes)
          · exact forall_mem_nil _
      · have clip : e.clipBack stop = e := if_neg past
        obtain ⟨kept, calls⟩ := protectEntry_eq newProt setMax first same e
        rw [if_neg past, clip]
        rw [forall_mem_append, ih later kept, calls]
        refine and_congr_left fun _ => ?_
        split_ifs with changes
        · exact ⟨fun all _ _ => all, fun all => all inRange changes⟩
        · exact iff_of_true (forall_mem_nil _) fun _ changes' => absurd changes' changes
    · rw [if_neg inRange]
      refine iff_of_true (forall_mem_nil _) ⟨fun low => absurd low inRange, ?_⟩
      exact fun d mem low => absurd low (behind (by omega) d mem)

end Calls

/-! ## What a call may grant -/

/-- Whether the data at an address of an entry is copy-on-write: the entry says so, or the entry of
its sharing map that contains the address. -/
def Entry.dataCopyOnWrite (shares : Option O → VmMap O) (e : Entry O) (a : ℕ) : Bool :=
  if e.isAMap then
    (entryAt (shares e.object).entries (e.mapping a).offset.toNat).any Entry.copyOnWrite
  else e.copyOnWrite

/-- A protection may be granted for an address: it is not more than the new protection of the entry
there, and without `VM_PROT_WRITE` if the data is copy-on-write. -/
def VmMap.Permits (map : VmMap O) (shares : Option O → VmMap O) (newProt : BitVec 32)
    (setMax : Bool) (prot : BitVec 32) (a : ℕ) : Prop :=
  ∃ e, entryAt map.entries a = some e ∧ prot &&& (e.protect newProt setMax).protection = prot ∧
    (prot &&& vmProtWrite ≠ 0 → e.dataCopyOnWrite shares a = false)

/-- A call stays inside of the range, and grants what may be granted. -/
def VmMap.Grants (map : VmMap O) (shares : Option O → VmMap O) (newProt : BitVec 32)
    (setMax : Bool) (start stop : ℕ) (call : PmapProtect) : Prop :=
  ∀ a, call.start ≤ a → a < call.stop →
    start ≤ a ∧ a < stop ∧ map.Permits shares newProt setMax call.prot a

/-- An entry with its new protection, clipped to the range, is masked well.  If it refers to a
sharing map, then for every entry of the sharing map that is visited: what the call covers behind
the entry lies in the range too and may be granted there; and if the call grants write access, no
data of the entry behind the start of the call is copy-on-write.  If it does not, then it is not
write-enabled while copy-on-write behind a first entry that is not. -/
def VmMap.Masks (map : VmMap O) (shares : Option O → VmMap O) (newProt : BitVec 32) (setMax : Bool)
    (start stop : ℕ) (first current : Entry O) : Prop :=
  if current.isAMap then
    ∀ share ∈ visited (shares current.object).entries current.offset.toNat,
      share.start < current.shareEnd →
      (∀ a, current.stop ≤ a → a < (shareCall current share).stop → start ≤ a ∧ a < stop ∧
          map.Permits shares newProt setMax (current.protection &&& share.mask) a) ∧
      (current.protection &&& vmProtWrite ≠ 0 → share.copyOnWrite = false →
        ∀ a, (shareCall current share).start ≤ a → a < (shareCall current share).stop →
          a < current.stop → current.dataCopyOnWrite shares a = false)
  else
    current.protection &&& vmProtWrite ≠ 0 → current.copyOnWrite = true → first.copyOnWrite = true

/-- A masked protection allows writing if the protection does, and the mask is not that of an entry
that is copy-on-write. -/
theorem and_mask_write (prot : BitVec 32) (e : Entry O) :
    (prot &&& e.mask) &&& vmProtWrite ≠ 0 ↔
      prot &&& vmProtWrite ≠ 0 ∧ e.copyOnWrite = false := by
  rw [Entry.mask, BitVec.and_assoc]
  cases e.copyOnWrite with
  | true =>
    have none : (~~~vmProtWrite &&& vmProtWrite : BitVec 32) = 0 := by decide
    rw [if_pos rfl, none]
    simp
  | false =>
    have write : (vmProtAll &&& vmProtWrite : BitVec 32) = vmProtWrite := by decide
    rw [if_neg Bool.false_ne_true, write]
    simp

variable {l : List (Entry O)}

theorem entryAt_of_mem {lo hi a : ℕ} {e : Entry O}
    (segments : Segments Entry.start Entry.stop lo l hi) (mem : e ∈ l) (low : e.start ≤ a)
    (high : a < e.stop) : entryAt l a = some e := by
  obtain ⟨l₁, l₂, rfl⟩ := append_of_mem mem
  obtain ⟨first, from_, -⟩ := segments_append.mp segments
  rw [entryAt_append_of_stop_le fun d mem => (first.stop_le_lastStop mem).trans
    (from_.trans low)]
  exact covering_cons_of_inside low high l₂

theorem segments_starts {lo hi : ℕ} (segments : Segments Entry.start Entry.stop lo l hi) :
    l.Pairwise fun e d => e.start ≤ d.start := by
  induction l generalizing lo with
  | nil => exact List.Pairwise.nil
  | cons e rest ih =>
    obtain ⟨-, order, -, later⟩ := segments
    refine pairwise_cons.mpr ⟨fun d mem => ?_, ih later⟩
    have := (later.bounds mem).1
    omega

theorem visited_sublist (l : List (Entry O)) (address : ℕ) :
    (visited l address).Sublist l := by
  rw [visited]
  split_ifs with found
  · exact dropWhile_sublist _
  cases last : (l.takeWhile fun e => decide (e.stop ≤ address)).getLast? with
  | none => exact nil_sublist l
  | some e =>
    have front := singleton_sublist.mpr (mem_of_getLast? last)
    have whole := front.append (List.Sublist.refl (l.dropWhile fun e => e.stop ≤ address))
    rw [takeWhile_append_dropWhile] at whole
    exact whole

/-- The calls for a sharing map are those for the entries that are visited in front of the end of
the window. -/
theorem shareCalls_forall (current : Entry O)
    (sorted : l.Pairwise fun e d => e.start ≤ d.start) (fine : PmapProtect → Prop) :
    (∀ call ∈ shareCalls current l, fine call) ↔
      ∀ share ∈ l, share.start < current.shareEnd → fine (shareCall current share) := by
  induction l with
  | nil => simp [shareCalls]
  | cons share rest ih =>
    obtain ⟨later, sorted⟩ := pairwise_cons.mp sorted
    rw [shareCalls, forall_mem_cons]
    split_ifs with mem
    · rw [forall_mem_cons, ih sorted]
      exact and_congr_left fun _ => ⟨fun here _ => here, fun here => here mem⟩
    refine iff_of_true (forall_mem_nil _) ⟨fun low => absurd low mem, ?_⟩
    intro d member low
    have := later d member
    omega

/-! ## The calls for one entry -/

section Entries

variable {map : VmMap O} {shares : Option O → VmMap O} {newProt : BitVec 32} {setMax : Bool}
  {start stop a : ℕ} {first e : Entry O}

/-- What a change of the protection leaves of an entry. -/
theorem protect_place (newProt : BitVec 32) (setMax : Bool) (e : Entry O) :
    (e.protect newProt setMax).start = e.start ∧ (e.protect newProt setMax).stop = e.stop ∧
      (e.protect newProt setMax).isAMap = e.isAMap ∧
      (e.protect newProt setMax).object = e.object ∧
      (e.protect newProt setMax).offset = e.offset ∧
      (e.protect newProt setMax).copyOnWrite = e.copyOnWrite := by
  rw [Entry.protect]
  split_ifs <;> exact ⟨rfl, rfl, rfl, rfl, rfl, rfl⟩

theorem protect_clipFront (start : ℕ) (e : Entry O) :
    ((e.clipFront start).protect newProt setMax).protection =
      (e.protect newProt setMax).protection := by
  rw [Entry.clipFront]
  split_ifs
  · cases setMax <;> rfl
  · rfl

theorem protect_clipBack (stop : ℕ) (e : Entry O) :
    ((e.clipBack stop).protect newProt setMax).protection =
      (e.protect newProt setMax).protection := by
  rw [Entry.clipBack]
  split_ifs
  · cases setMax <;> rfl
  · rfl

theorem dataCopyOnWrite_protect (e : Entry O) :
    (e.protect newProt setMax).dataCopyOnWrite shares a = e.dataCopyOnWrite shares a := by
  rw [Entry.protect]
  split_ifs <;> rfl

theorem dataCopyOnWrite_clipBack (stop : ℕ) (e : Entry O) :
    (e.clipBack stop).dataCopyOnWrite shares a = e.dataCopyOnWrite shares a := by
  rw [Entry.clipBack]
  split_ifs <;> rfl

theorem dataCopyOnWrite_clipFront (high : start ≤ a) (e : Entry O) :
    (e.clipFront start).dataCopyOnWrite shares a = e.dataCopyOnWrite shares a := by
  have mapping := mapping_clipFront (e := e) high
  obtain ⟨isAMap, object, copyOnWrite⟩ : (e.clipFront start).isAMap = e.isAMap ∧
      (e.clipFront start).object = e.object ∧
      (e.clipFront start).copyOnWrite = e.copyOnWrite := by
    rw [Entry.clipFront]
    split_ifs <;> exact ⟨rfl, rfl, rfl⟩
  rw [Entry.dataCopyOnWrite, Entry.dataCopyOnWrite, mapping, isAMap, object, copyOnWrite]

/-- What may be granted at an address of a clipped entry. -/
theorem CutAt.permits {cut : Cut O} (at_ : CutAt map start cut) (shares : Option O → VmMap O)
    (newProt : BitVec 32) (setMax : Bool) (stop : ℕ) (mem : e ∈ cut.rest)
    (low : e.start ≤ a) (high : a < e.stop) (prot : BitVec 32) :
    map.Permits shares newProt setMax prot a ↔
      prot &&& ((e.clipBack stop).protect newProt setMax).protection = prot ∧
        (prot &&& vmProtWrite ≠ 0 →
          ((e.clipBack stop).protect newProt setMax).dataCopyOnWrite shares a = false) := by
  have reaches : start ≤ a := (at_.later e mem).trans low
  have here := at_.entry a reaches
  rw [entryAt_of_mem at_.segments mem low high] at here
  obtain ⟨e', found, rfl⟩ := map_eq_some_iff.mp here.symm
  rw [protect_clipBack, protect_clipFront, dataCopyOnWrite_protect, dataCopyOnWrite_clipBack,
    dataCopyOnWrite_clipFront reaches]
  constructor
  · rintro ⟨d, same, permits⟩
    rw [found] at same
    cases same
    exact permits
  · exact fun permits => ⟨e', found, permits⟩

/-- The calls for an entry grant what may be granted if and only if it is masked well. -/
theorem CutAt.grants {cut : Cut O} (at_ : CutAt map start cut) (whole : map.maxOffset < 2 ^ 32)
    (sharesInv : ∀ object, (shares object).ShareInv) (mem : e ∈ cut.rest)
    (inRange : e.start < stop) :
    (∀ call ∈ callsOf shares first ((e.clipBack stop).protect newProt setMax),
        map.Grants shares newProt setMax start stop call) ↔
      map.Masks shares newProt setMax start stop first
        ((e.clipBack stop).protect newProt setMax) := by
  have permits (a : ℕ) (low : e.start ≤ a) (high : a < e.stop) (prot : BitVec 32) :=
    at_.permits shares newProt setMax stop mem low high prot
  have bounds := at_.segments.bounds mem
  -- the clipped entry lies in the range
  obtain ⟨begins, ends⟩ : ((e.clipBack stop).protect newProt setMax).start = e.start ∧
      ((e.clipBack stop).protect newProt setMax).stop = min e.stop stop := by
    rw [(protect_place ..).1, (protect_place ..).2.1, Entry.clipBack]
    split_ifs with past
    · exact ⟨rfl, (min_eq_right past.le).symm⟩
    · exact ⟨rfl, (min_eq_left (Nat.le_of_not_lt past)).symm⟩
  generalize (e.clipBack stop).protect newProt setMax = current at *
  have order : current.start < current.stop := by omega
  have within {a : ℕ} (low : current.start ≤ a) (high : a < current.stop) :
      start ≤ a ∧ a < stop := by omega
  rw [callsOf, Masks]
  split_ifs with shared
  · have inv := sharesInv current.object
    have sorted := (segments_starts inv.list.segments).sublist
      (visited_sublist (shares current.object).entries current.offset.toNat)
    rw [shareCalls_forall current sorted]
    refine forall_congr' fun share => forall_congr' fun _ => forall_congr' fun visits => ?_
    -- the call begins inside of the entry
    have begins' : current.start ≤ (shareCall current share).start ∧
        (shareCall current share).start < current.stop := by
      have window : current.shareEnd ≤ current.offset.toNat + (current.stop - current.start) :=
        Nat.mod_le _ _
      have value : max share.start current.offset.toNat - current.offset.toNat + current.start <
          current.stop := by
        rcases le_total share.start current.offset.toNat with before | behind
        · rw [max_eq_right before]
          omega
        · rw [max_eq_left behind]
          omega
      rw [shareCall, Nat.mod_eq_of_lt (by omega)]
      exact ⟨Nat.le_add_left _ _, value⟩
    constructor
    · intro grants
      refine ⟨fun a behind covered => grants a (by omega) covered, ?_⟩
      intro write notCow a low high before
      have permitted := (grants a low high).2.2
      rw [permits a (by omega) (by omega)] at permitted
      exact permitted.2 ((and_mask_write _ _).mpr ⟨write, notCow⟩)
    · rintro ⟨behind, masked⟩ a low high
      by_cases before : a < current.stop
      · refine ⟨(within (by omega) before).1, (within (by omega) before).2, ?_⟩
        rw [permits a (by omega) (by omega)]
        refine ⟨?_, fun writes => ?_⟩
        · rw [BitVec.and_comm, shareCall, ← BitVec.and_assoc, BitVec.and_self]
        · obtain ⟨write, notCow⟩ := (and_mask_write _ _).mp writes
          exact masked write notCow a low high before
      · exact behind a (by omega) high
  · rw [forall_mem_singleton]
    have plain (a : ℕ) : current.dataCopyOnWrite shares a = current.copyOnWrite := by
      rw [Entry.dataCopyOnWrite, if_neg shared]
    constructor
    · intro grants write cow
      by_contra notCow
      have permitted := (grants current.start le_rfl order).2.2
      rw [permits _ (by omega) (by omega), plain] at permitted
      have := permitted.2 ((and_mask_write _ _).mpr ⟨write, by simpa using notCow⟩)
      rw [cow] at this
      cases this
    · intro masked a low high
      have low : current.start ≤ a := low
      have high : a < current.stop := high
      refine ⟨(within low high).1, (within low high).2, ?_⟩
      rw [permits a (by omega) (by omega), plain]
      refine ⟨?_, fun writes => ?_⟩
      · rw [BitVec.and_comm, ← BitVec.and_assoc, BitVec.and_self]
      obtain ⟨write, notCow⟩ := (and_mask_write _ _).mp writes
      by_contra cow
      have := masked write (by simpa using cow)
      rw [notCow] at this
      cases this

end Entries

section Grants

variable [DecidableEq O]

/-- No call of `pmap_protect` by `vm_map_protect` leaves the range, grants more than the new
protection of an entry or makes data writable that is copy-on-write, if and only if each entry of
the range whose protection changes is masked well.  A failure makes no call and changes nothing. -/
theorem vmMapProtect_grants (map : VmMap O) (shares : Option O → VmMap O) (inv : map.Inv)
    (whole : map.maxOffset < 2 ^ 32) (sharesInv : ∀ object, (shares object).ShareInv)
    (start stop : ℕ) (newProt : BitVec 32) (setMax : Bool) :
    let range := map.rangeCheck start stop
    let result := map.vmMapProtectPmap shares start stop newProt setMax
    (result.1 ≠ .success → result.2.2.2 = [] ∧ ∀ a, result.2.1.view a = map.view a) ∧
    ((∀ call ∈ result.2.2.2, map.Grants shares newProt setMax range.1 range.2 call) ↔
      (map.Allows newProt range.1 range.2 →
        ∀ first, (map.clipStart range.1).rest.head? = some first →
        ∀ e ∈ (map.clipStart range.1).rest, e.start < range.2 →
          ((e.clipBack range.2).protect newProt setMax).protection ≠ e.protection →
          map.Masks shares newProt setMax range.1 range.2 first
            ((e.clipBack range.2).protect newProt setMax))) := by
  intro range result
  have at_ := inv.clipStart range.1
  have plain := fun e mem => at_.inv.noSubMap e (mem_append_right _ mem)
  have allows : map.Allows newProt range.1 range.2 ↔ _ := inv.allows
  rcases checkProtection_eq newProt range.2 at_.segments plain with
    ⟨success, all⟩ | ⟨failure, e, mem, low, refused⟩
  · have allowed : map.Allows newProt range.1 range.2 := allows.mpr all
    cases visits : (map.clipStart range.1).rest with
    | nil =>
      have eq : result = (.success, map.withList (map.clipStart range.1).hint
          (map.clipStart range.1).before ((map.clipStart range.1).counts, []), shares, []) := by
        show map.vmMapProtectPmap shares start stop newProt setMax = _
        rw [visits] at success
        rw [vmMapProtectPmap]
        simp only [range] at visits success ⊢
        simp only [visits, success]
      rw [eq]
      exact ⟨fun failed => absurd rfl failed, iff_of_true (forall_mem_nil _) fun _ _ none =>
        nomatch none⟩
    | cons first rest =>
      have eq : result.1 = .success ∧
          result.2.2.2 = (protectLoop newProt setMax range.2 first shares
            (map.clipStart range.1).counts (first :: rest)).2.1 := by
        show (map.vmMapProtectPmap shares start stop newProt setMax).1 = _ ∧
          (map.vmMapProtectPmap shares start stop newProt setMax).2.2.2 = _
        rw [visits] at success
        rw [vmMapProtectPmap]
        simp only [range] at visits success ⊢
        simp only [visits, success, and_self]
      rw [eq.1, eq.2]
      refine ⟨fun failed => absurd rfl failed, ?_⟩
      have segments := at_.segments
      rw [visits] at segments
      rw [protectLoop_calls segments _ fun object => ⟨sharesInv object, rfl⟩]
      constructor
      · intro grants _ first' head e mem low changes
        cases head
        exact (at_.grants whole sharesInv (by rw [visits]; exact mem) low).mp
          (grants e mem low changes)
      · intro masks e mem low changes
        exact (at_.grants whole sharesInv (by rw [visits]; exact mem) low).mpr
          (masks allowed first rfl e mem low changes)
  · have eq : result = (.protectionFailure, map.withList (map.clipStart range.1).hint
        (map.clipStart range.1).before
        ((map.clipStart range.1).counts, (map.clipStart range.1).rest), shares, []) := by
      show map.vmMapProtectPmap shares start stop newProt setMax = _
      rw [vmMapProtectPmap]
      simp only [range, failure]
    rw [eq]
    refine ⟨fun _ => ⟨rfl, at_.view⟩, ?_⟩
    refine iff_of_true (forall_mem_nil _) fun allowed => ?_
    exact absurd (allows.mp allowed e mem low) refused

end Grants

/-- A map of two pages that can be read; the second is copy-on-write. -/
def protectSample : VmMap Unit where
  minOffset := 0x1000
  maxOffset := 0xfffff000
  entries :=
    [{ sampleEntry with
        id := 0, start := 0x1000, stop := 0x2000, protection := 1, maxProtection := 7 },
      { sampleEntry with
        id := 1, start := 0x2000, stop := 0x3000, protection := 1, maxProtection := 7
        copyOnWrite := true }]
  counts := { nentries := 2, size := 0x2000, nextId := 2 }
  hint := none
  firstFree := none
  isMainMap := true

/-- Sharing maps without entries. -/
def noShares : Option Unit → VmMap Unit := fun _ => { vmMapCreate Unit 0 0 with isMainMap := false }

theorem protectSample_inv : protectSample.Inv where
  list :=
    { segments := ⟨by decide, by decide, by decide, by decide, by decide, by decide, trivial⟩
      distinct := by decide
      old := by decide
      nentries := rfl
      size := rfl
      noSubMap := by decide }
  hint := denotes_none _
  firstFree := denotes_none _
  main := rfl

theorem noShares_inv (object : Option Unit) : (noShares object).ShareInv := vmMapCreate_inv 0 0

/-- The first page is made writable: the call stays inside of it. -/
theorem vmMapProtect_grants_sample :
    ((protectSample.vmMapProtectPmap noShares 0x1000 0x2000 3 false).2.2.2.map fun call =>
        (call.start, call.stop, call.prot)) = [(0x1000, 0x2000, 3)] ∧
    ∀ call ∈ (protectSample.vmMapProtectPmap noShares 0x1000 0x2000 3 false).2.2.2,
      protectSample.Grants noShares 3 false 0x1000 0x2000 call := by
  refine ⟨by decide +kernel, ?_⟩
  refine (vmMapProtect_grants protectSample noShares protectSample_inv (by decide) noShares_inv
    0x1000 0x2000 3 false).2.mpr fun _ first head e mem low _ => ?_
  have rest : (protectSample.clipStart 0x1000).rest = protectSample.entries := rfl
  have mem : e ∈ (protectSample.clipStart 0x1000).rest := mem
  rw [rest] at mem
  rcases mem_cons.mp mem with rfl | mem
  · intro _ copied
    cases copied
  · obtain rfl := mem_singleton.mp mem
    exact absurd low (by decide)

/-- Both pages are made writable: so is the second one in the physical map, although its data is
copy-on-write, as the mask is that of the first. -/
theorem vmMapProtect_enables :
    protectSample.Inv ∧
    ((protectSample.vmMapProtectPmap noShares 0x1000 0x3000 3 false).2.2.2.map fun call =>
        (call.start, call.stop, call.prot)) = [(0x1000, 0x2000, 3), (0x2000, 0x3000, 3)] ∧
    ¬ ∀ call ∈ (protectSample.vmMapProtectPmap noShares 0x1000 0x3000 3 false).2.2.2,
      protectSample.Grants noShares 3 false 0x1000 0x3000 call := by
  have calls : ((protectSample.vmMapProtectPmap noShares 0x1000 0x3000 3 false).2.2.2.map
      fun call => (call.start, call.stop, call.prot)) =
        [(0x1000, 0x2000, 3), (0x2000, 0x3000, 3)] := by
    decide +kernel
  refine ⟨protectSample_inv, calls, fun grants => ?_⟩
  have second : ((0x2000, 0x3000, 3) : ℕ × ℕ × BitVec 32) ∈
      (protectSample.vmMapProtectPmap noShares 0x1000 0x3000 3 false).2.2.2.map
        fun call => (call.start, call.stop, call.prot) := by
    rw [calls]
    simp
  obtain ⟨call, mem, eq⟩ := mem_map.mp second
  obtain ⟨start, stop, prot⟩ : call.start = 0x2000 ∧ call.stop = 0x3000 ∧ call.prot = 3 :=
    ⟨congrArg (·.1) eq, congrArg (·.2.1) eq, congrArg (·.2.2) eq⟩
  obtain ⟨-, -, e, found, -, masked⟩ := grants call mem 0x2000 (by omega) (by omega)
  have copied : e.copyOnWrite = true ∧ e.isAMap = false := by
    have here : ((entryAt protectSample.entries 0x2000).map fun e => (e.copyOnWrite, e.isAMap)) =
        some (true, false) := by
      decide +kernel
    rw [found] at here
    have here := some.inj here
    exact ⟨congrArg (·.1) here, congrArg (·.2) here⟩
  have masked := masked (by rw [prot]; decide)
  rw [Entry.dataCopyOnWrite, copied.2, if_neg Bool.false_ne_true, copied.1] at masked
  cases masked

end Darwin.Vm.Map
