import Darwin.Kern.Zalloc.Basic
import Darwin.Vm.Map.FirstFit

/-!
# Copies that fail

`vm_map_copy` copies a range of one map to a range of another one, or of the same.  It checks that
the source can be read and that the destination can be written, or maps the destination; the copy
itself is not reached when a check fails.  All returns behind the first check leave through a common
label, where the source is unmapped if the caller asked for that: also after a failure.

`vm_write` copies from the map that messages are received in and destroys the source; `vm_move` maps
the destination before the copy and unmaps it when the copy fails.

## Main results

* `vmMapCopy_failure` - what a failure changes, and when it changes nothing
-/

namespace Darwin.Vm.Map

open Function (update update_of_ne update_self)
open Darwin.Lib
open Darwin.Kern.Zalloc (roundPage sub32 truncPage)

variable {M O : Type*}

/-! ## The checks -/

/-- `VM_PROT_READ`. -/
def vmProtRead : BitVec 32 := 1

/-- `VM_PROT_WRITE`. -/
def vmProtWrite : BitVec 32 := 2

/-- The loop of `vm_map_check_protection`, from the entry at the head of the list on; the end of the
list is the header of the map. -/
def protectionLoop (protection : BitVec 32) (stop : ℕ) : ℕ → List (Entry O) → Bool
  | start, [] => decide (stop ≤ start)
  | start, e :: rest =>
    if start < stop then
      if start < e.start then false
      else if e.protection &&& protection != protection then false
      else protectionLoop protection stop e.stop rest
    else true

/-- `vm_map_check_protection`: the answer, and the map with the new hint. -/
def VmMap.vmMapCheckProtection (map : VmMap O) (start stop : ℕ) (protection : BitVec 32) :
    Bool × VmMap O :=
  let (found, entry, map) := map.vmMapLookupEntry start
  if found then
    (protectionLoop protection stop start (cutAt map.entries (entry.getD 0)).2, map)
  else (false, map)

section Copy

variable [DecidableEq M] (zalloc : ℕ → Entry O) (coalesce : O → Bool)
  (copyRange : (M → VmMap O) → M → VmMap O)

/-- The checks of `vm_map_copy`: the result so far, and the maps. -/
def copyChecks (maps : M → VmMap O) (dst src : M) (dstStart dstEnd srcStart srcEnd : ℕ)
    (dstAlloc : Bool) : KernReturn × (M → VmMap O) :=
  if (maps src).isMainMap && (maps dst).isMainMap then
    let (readable, map) := (maps src).vmMapCheckProtection srcStart srcEnd vmProtRead
    let maps := update maps src map
    if readable then
      if dstAlloc then
        let (result, map) := (maps dst).vmMapInsert zalloc coalesce none 0 dstStart dstEnd
        (result, update maps dst map)
      else
        let (writable, map) := (maps dst).vmMapCheckProtection dstStart dstEnd vmProtWrite
        (if writable then .success else .protectionFailure, update maps dst map)
    else (.protectionFailure, maps)
  else (.success, maps)

/-- `vm_map_copy`.  `copyRange` is what is between the checks and the label `Return`: the loop over
the entries of both ranges, which does not assign to `result`. -/
def vmMapCopy (maps : M → VmMap O) (dst src : M) (dstAddr len srcAddr : ℕ)
    (dstAlloc srcDestroy : Bool) : KernReturn × (M → VmMap O) :=
  let srcEnd := (srcAddr + len) % 2 ^ 32
  let dstEnd := (dstAddr + len) % 2 ^ 32
  if dstEnd < dstAddr ∨ srcEnd < srcAddr then (.noSpace, maps)
  else
    let (result, maps) := copyChecks zalloc coalesce maps dst src dstAddr dstEnd srcAddr srcEnd
      dstAlloc
    let maps := if result = .success then copyRange maps else maps
    -- the label `Return`
    (result,
      if srcDestroy then update maps src ((maps src).vmMapDelete srcAddr srcEnd).2
      else maps)

/-- `vm_write`, from the map `ipcSoftMap`. -/
def vmWrite (page : ℕ) (maps : M → VmMap O) (ipcSoftMap map : M) (address data size : ℕ) :
    KernReturn × (M → VmMap O) :=
  if roundPage page address ≠ address ∨ roundPage page size ≠ size then (.invalidArgument, maps)
  else vmMapCopy zalloc coalesce copyRange maps map ipcSoftMap address size data false true

/-- `vm_allocate`: the return code, the address, and the map. -/
def VmMap.vmAllocate (map : VmMap O) (page addr size : ℕ) (anywhere : Bool) :
    KernReturn × ℕ × VmMap O :=
  if size = 0 then (.success, 0, map)
  else
    map.vmMapFind zalloc coalesce none 0 (if anywhere then map.minOffset else truncPage page addr)
      (roundPage page size) anywhere

/-- `vm_deallocate`. -/
def VmMap.vmDeallocate (map : VmMap O) (page start size : ℕ) : KernReturn × VmMap O :=
  if size = 0 then (.success, map)
  else map.vmMapRemove (truncPage page start) (roundPage page ((start + size) % 2 ^ 32))

/-- `src_size` of `vm_move`: the size of the range in whole pages. -/
def moveSize (page srcAddr numBytes : ℕ) : ℕ :=
  sub32 (roundPage page ((srcAddr + numBytes) % 2 ^ 32)) (truncPage page srcAddr)

/-- `vm_move` behind its copy: the address for the caller, or the destination unmapped again. -/
def finishMove (page : ℕ) (dst : M) (dstStart srcSize inPage : ℕ) :
    KernReturn × (M → VmMap O) → KernReturn × Option ℕ × (M → VmMap O)
  | (result, maps) =>
    if result = .success then (result, some ((dstStart + inPage) % 2 ^ 32), maps)
    else
      (result, none, update maps dst ((maps dst).vmDeallocate page dstStart srcSize).2)

/-- `vm_move` behind its allocation. -/
def moveTo (page : ℕ) (maps : M → VmMap O) (src dst : M) (srcStart srcSize inPage : ℕ)
    (srcDealloc : Bool) :
    KernReturn × ℕ × VmMap O → KernReturn × Option ℕ × (M → VmMap O)
  | (result, dstStart, map) =>
    if result = .success then
      finishMove page dst dstStart srcSize inPage
        (vmMapCopy zalloc coalesce copyRange (update maps dst map) dst src dstStart srcSize
          srcStart false srcDealloc)
    else (result, none, update maps dst map)

/-- `vm_move`: the return code, the address for the caller if it is set, and the maps. -/
def vmMove (page : ℕ) (maps : M → VmMap O) (src : M) (srcAddr : ℕ) (dst : M) (numBytes : ℕ)
    (srcDealloc : Bool) : KernReturn × Option ℕ × (M → VmMap O) :=
  if numBytes = 0 then (.success, some 0, maps)
  else
    moveTo zalloc coalesce copyRange page maps src dst (truncPage page srcAddr)
      (moveSize page srcAddr numBytes) (srcAddr - truncPage page srcAddr) srcDealloc
      ((maps dst).vmAllocate zalloc coalesce page 0 (moveSize page srcAddr numBytes) true)

/-! ## What a failure leaves -/

/-- Nothing has changed but the hints of lookups. -/
def HintsOnly (maps maps' : M → VmMap O) : Prop :=
  ∀ m, ∃ hint, maps' m = { maps m with hint := hint } ∧
    ((maps m).Inv → Denotes (maps m).entries hint)

omit [DecidableEq M] in
theorem HintsOnly.refl (maps : M → VmMap O) : HintsOnly maps maps :=
  fun m => ⟨(maps m).hint, rfl, VmMap.Inv.hint⟩

variable {maps maps' : M → VmMap O} {m src : M} {map : VmMap O} {start page x size : ℕ}

omit [DecidableEq M] in
theorem HintsOnly.trans {maps'' : M → VmMap O} (first : HintsOnly maps maps')
    (second : HintsOnly maps' maps'') : HintsOnly maps maps'' := by
  intro m
  obtain ⟨hint, eq, denotes⟩ := first m
  obtain ⟨hint', eq', denotes'⟩ := second m
  rw [eq] at eq' denotes'
  exact ⟨hint', eq', fun inv => denotes' (inv.withHint (denotes inv))⟩

omit [DecidableEq M] in
theorem HintsOnly.inv (same : HintsOnly maps maps') (inv : (maps m).Inv) : (maps' m).Inv := by
  obtain ⟨hint, eq, denotes⟩ := same m
  rw [eq]
  exact inv.withHint (denotes inv)

theorem HintsOnly.update
    (changed : ∃ hint, map = { maps m with hint := hint } ∧ Denotes (maps m).entries hint) :
    HintsOnly maps (update maps m map) := by
  intro m'
  by_cases here : m' = m
  · subst here
    obtain ⟨hint, eq, denotes⟩ := changed
    rw [update_self]
    exact ⟨hint, eq, fun _ => denotes⟩
  · rw [update_of_ne here]
    exact HintsOnly.refl maps m'

theorem VmMap.Inv.checkProtection (inv : map.Inv) (start stop : ℕ) (protection : BitVec 32) :
    ∃ hint, (map.vmMapCheckProtection start stop protection).2 = { map with hint := hint } ∧
      Denotes map.entries hint := by
  obtain ⟨-, hint, changed, denotes, -⟩ := inv.lookup start
  refine ⟨hint, ?_, denotes⟩
  rw [VmMap.vmMapCheckProtection, ← changed]
  dsimp only
  split_ifs <;> rfl

/-- A failed check has changed nothing but hints; maps without checks are not main maps. -/
theorem copyChecks_failed (inv : ∀ m, (maps m).isMainMap = true → (maps m).Inv) {dst : M}
    {dstStart dstEnd srcStart srcEnd : ℕ} {dstAlloc : Bool}
    (failed : (copyChecks zalloc coalesce maps dst src dstStart dstEnd srcStart srcEnd dstAlloc).1 ≠
      .success) :
    (maps src).Inv ∧ HintsOnly maps
      (copyChecks zalloc coalesce maps dst src dstStart dstEnd srcStart srcEnd dstAlloc).2 := by
  rw [copyChecks] at failed ⊢
  by_cases main : ((maps src).isMainMap && (maps dst).isMainMap) = true
  · rw [if_pos main] at failed ⊢
    rw [Bool.and_eq_true] at main
    have source := inv src main.1
    have read := HintsOnly.update (source.checkProtection srcStart srcEnd vmProtRead)
    refine ⟨source, ?_⟩
    dsimp only at failed ⊢
    -- the maps after the first check
    generalize update maps src _ = maps' at *
    have dest : (maps' dst).Inv := read.inv (inv dst main.2)
    split_ifs at failed ⊢ with readable alloc
    · -- `vm_map_insert` fails only where the range is not free
      refine read.trans (HintsOnly.update ?_)
      have inserted := dest.insert zalloc coalesce none 0 dstStart dstEnd
      obtain ⟨hint, denotes, ⟨busy, result⟩ | ⟨before, after, room, -⟩⟩ :=
        dest.insert_cases zalloc coalesce none 0 dstStart dstEnd
      · exact ⟨hint, result, denotes⟩
      have free : (maps' dst).Free dstStart dstEnd := by
        have free := room.free (dest.withHint denotes)
        exact free
      exact absurd (inserted.2.1 free).1 failed
    all_goals first
      | exact read.trans (HintsOnly.update (dest.checkProtection _ _ _))
      | exact read
  · rw [if_neg main] at failed
    exact absurd rfl failed

/-- The contents, protections and allocation of all maps are the same. -/
def Unchanged (maps maps' : M → VmMap O) : Prop :=
  ∀ m a, (maps' m).view a = (maps m).view a

/-- Nothing is mapped in a range. -/
def VmMap.Unmapped (map : VmMap O) (start stop : ℕ) : Prop :=
  ∀ a, start ≤ a → a < stop → map.view a = none

omit [DecidableEq M] in
theorem HintsOnly.unchanged (same : HintsOnly maps maps') :
    Unchanged maps maps' := by
  intro m a
  obtain ⟨hint, eq, -⟩ := same m
  rw [eq]
  rfl

/-- What a failed copy leaves: the maps as they were, up to hints, and without the source range if
the source was to be destroyed and the addresses do not wrap around. -/
theorem vmMapCopy_failed
    (inv : ∀ m, (maps m).isMainMap = true → (maps m).Inv) (dst src : M) (dstAddr len srcAddr : ℕ)
    (dstAlloc srcDestroy : Bool)
    (failed : (vmMapCopy zalloc coalesce copyRange maps dst src dstAddr len srcAddr dstAlloc
      srcDestroy).1 ≠ .success) :
    (((dstAddr + len) % 2 ^ 32 < dstAddr ∨ (srcAddr + len) % 2 ^ 32 < srcAddr) ∧
      (vmMapCopy zalloc coalesce copyRange maps dst src dstAddr len srcAddr dstAlloc
        srcDestroy).2 = maps) ∨
    ¬ ((dstAddr + len) % 2 ^ 32 < dstAddr ∨ (srcAddr + len) % 2 ^ 32 < srcAddr) ∧
      ∃ maps', (maps' src).Inv ∧ HintsOnly maps maps' ∧
        (vmMapCopy zalloc coalesce copyRange maps dst src dstAddr len srcAddr dstAlloc
          srcDestroy).2 =
          if srcDestroy then update maps' src
            ((maps' src).vmMapDelete srcAddr ((srcAddr + len) % 2 ^ 32)).2 else maps' := by
  rw [vmMapCopy] at failed ⊢
  by_cases wraps : (dstAddr + len) % 2 ^ 32 < dstAddr ∨ (srcAddr + len) % 2 ^ 32 < srcAddr
  · exact .inl ⟨wraps, by rw [if_pos wraps]⟩
  rw [if_neg wraps] at failed ⊢
  obtain ⟨source, same⟩ := copyChecks_failed zalloc coalesce inv failed
  refine .inr ⟨wraps, _, same.inv source, same, ?_⟩
  dsimp only at failed ⊢
  rw [if_neg failed]

/-- A failed copy leaves everything mapped but the source range. -/
theorem vmMapCopy_view
    (inv : ∀ m, (maps m).isMainMap = true → (maps m).Inv) (dst src : M) (dstAddr len srcAddr : ℕ)
    (dstAlloc srcDestroy : Bool) (whole : dstAddr + len < 2 ^ 32 ∧ srcAddr + len < 2 ^ 32)
    (failed : (vmMapCopy zalloc coalesce copyRange maps dst src dstAddr len srcAddr dstAlloc
      srcDestroy).1 ≠ .success) (m : M) (a : ℕ) :
    ((vmMapCopy zalloc coalesce copyRange maps dst src dstAddr len srcAddr dstAlloc
      srcDestroy).2 m).view a =
      if srcDestroy = true ∧ m = src ∧ srcAddr ≤ a ∧ a < srcAddr + len then none
      else (maps m).view a := by
  rcases vmMapCopy_failed zalloc coalesce copyRange inv _ _ _ _ _ _ _ failed with
    ⟨wraps, -⟩ | ⟨-, maps', source, same, result⟩
  · rw [Nat.mod_eq_of_lt whole.1, Nat.mod_eq_of_lt whole.2] at wraps
    omega
  rw [result, Nat.mod_eq_of_lt whole.2]
  cases srcDestroy with
  | false =>
    rw [if_neg Bool.false_ne_true, if_neg fun destroy => Bool.false_ne_true destroy.1]
    exact same.unchanged m a
  | true =>
    rw [if_pos rfl]
    by_cases here : m = src
    · subst here
      rw [update_self, (source.delete srcAddr (srcAddr + len)).2.2, same.unchanged m a]
      simp only [true_and]
    · rw [update_of_ne here, if_neg fun destroy => here destroy.2.1]
      exact same.unchanged m a

/-- A range of the source that is unmapped changes something if and only if something was mapped
there. -/
theorem unchanged_iff {stop : ℕ} {destroy : Bool} (view : ∀ m a, (maps' m).view a =
      if destroy = true ∧ m = src ∧ start ≤ a ∧ a < stop then none else (maps m).view a) :
    Unchanged maps maps' ↔ destroy = false ∨ (maps src).Unmapped start stop := by
  constructor
  · intro same
    cases destroy with
    | false => exact .inl rfl
    | true =>
      refine .inr fun a low high => ?_
      rw [← same src a, view, if_pos ⟨rfl, rfl, low, high⟩]
  · rintro keeps m a
    rw [view]
    split_ifs with mem
    · obtain ⟨destroys, rfl, low, high⟩ := mem
      rcases keeps with kept | unmapped
      · rw [kept] at destroys
        cases destroys
      · exact (unmapped a low high).symm
    · rfl

variable (inv : ∀ m, (maps m).isMainMap = true → (maps m).Inv)

include inv

/-- When a failed `vm_map_copy` changes nothing. -/
theorem vmMapCopy_unchanged (dst src : M) (dstAddr len srcAddr : BitVec 32)
    (dstAlloc srcDestroy : Bool)
    (failed : (vmMapCopy zalloc coalesce copyRange maps dst src dstAddr.toNat len.toNat srcAddr.toNat dstAlloc srcDestroy).1 ≠ .success) :
    Unchanged maps (vmMapCopy zalloc coalesce copyRange maps dst src dstAddr.toNat len.toNat
        srcAddr.toNat dstAlloc srcDestroy).2 ↔
      2 ^ 32 ≤ dstAddr.toNat + len.toNat ∨ 2 ^ 32 ≤ srcAddr.toNat + len.toNat ∨ srcDestroy = false ∨
        (maps src).Unmapped srcAddr.toNat (srcAddr.toNat + len.toNat) := by
  have := dstAddr.isLt
  have := srcAddr.isLt
  have := len.isLt
  by_cases whole : dstAddr.toNat + len.toNat < 2 ^ 32 ∧ srcAddr.toNat + len.toNat < 2 ^ 32
  · rw [unchanged_iff (vmMapCopy_view zalloc coalesce copyRange inv _ _ _ _ _ _ _ whole failed),
      or_iff_right (show ¬ 2 ^ 32 ≤ dstAddr.toNat + len.toNat by omega),
      or_iff_right (show ¬ 2 ^ 32 ≤ srcAddr.toNat + len.toNat by omega)]
  rcases vmMapCopy_failed zalloc coalesce copyRange inv _ _ _ _ _ _ _ failed with
    ⟨-, result⟩ | ⟨fits, -⟩
  · rw [result]
    exact iff_of_true (fun _ _ => rfl) (by omega)
  · omega

/-- When a failed `vm_write` changes nothing. -/
theorem vmWrite_unchanged (page : ℕ) (ipcSoftMap map : M) (address data size : BitVec 32)
    (failed : (vmWrite zalloc coalesce copyRange page maps ipcSoftMap map address.toNat data.toNat size.toNat).1 ≠ .success) :
    Unchanged maps (vmWrite zalloc coalesce copyRange page maps ipcSoftMap map address.toNat
        data.toNat size.toNat).2 ↔
      (roundPage page address.toNat ≠ address.toNat ∨ roundPage page size.toNat ≠ size.toNat) ∨
        2 ^ 32 ≤ address.toNat + size.toNat ∨ 2 ^ 32 ≤ data.toNat + size.toNat ∨
        (maps ipcSoftMap).Unmapped data.toNat (data.toNat + size.toNat) := by
  rw [vmWrite] at failed ⊢
  by_cases misaligned : roundPage page address.toNat ≠ address.toNat ∨
      roundPage page size.toNat ≠ size.toNat
  · rw [if_pos misaligned]
    exact iff_of_true (fun _ _ => rfl) (.inl misaligned)
  · rw [if_neg misaligned] at failed ⊢
    rw [vmMapCopy_unchanged zalloc coalesce copyRange inv _ _ _ _ _ _ _ failed,
      or_iff_right misaligned, or_iff_right (show ¬ true = false from nofun)]

/-! ## `vm_move` -/

theorem vmMapCopy_kept (dst src : M) (dstAddr len srcAddr : ℕ) (dstAlloc srcDestroy : Bool)
    (failed : (vmMapCopy zalloc coalesce copyRange maps dst src dstAddr len srcAddr dstAlloc srcDestroy).1 ≠ .success)
    (main : (maps m).Inv) :
    ((vmMapCopy zalloc coalesce copyRange maps dst src dstAddr len srcAddr dstAlloc
      srcDestroy).2 m).Inv ∧
    ((vmMapCopy zalloc coalesce copyRange maps dst src dstAddr len srcAddr dstAlloc
      srcDestroy).2 m).minOffset = (maps m).minOffset ∧
    ((vmMapCopy zalloc coalesce copyRange maps dst src dstAddr len srcAddr dstAlloc
      srcDestroy).2 m).maxOffset = (maps m).maxOffset := by
  rcases vmMapCopy_failed zalloc coalesce copyRange inv _ _ _ _ _ _ _ failed with
    ⟨-, result⟩ | ⟨-, maps', source, same, result⟩
  · rw [result]
    exact ⟨main, rfl, rfl⟩
  have kept : (maps' m).Inv ∧ (maps' m).minOffset = (maps m).minOffset ∧
      (maps' m).maxOffset = (maps m).maxOffset := by
    obtain ⟨hint, eq, denotes⟩ := same m
    rw [eq]
    exact ⟨main.withHint (denotes main), rfl, rfl⟩
  rw [result]
  split_ifs with destroys
  · by_cases here : m = src
    · subst here
      rw [update_self]
      exact ⟨(source.delete _ _).1, kept.2⟩
    · rw [update_of_ne here]
      exact kept
  · exact kept

omit inv

/-- The entries of a map are made of whole pages. -/
def VmMap.PageAligned (page : ℕ) (map : VmMap O) : Prop :=
  page ∣ map.minOffset ∧ ∀ e ∈ map.entries, page ∣ e.stop

theorem roundPage_of_dvd (positive : 0 < page) (whole : page ∣ 2 ^ 32)
    (aligned : page ∣ x) (small : x < 2 ^ 32) : roundPage page x = x := by
  obtain ⟨k, rfl⟩ := aligned
  obtain ⟨n, total⟩ := whole
  have below : k < n := by
    rw [total] at small
    exact Nat.lt_of_mul_lt_mul_left small
  have room : page * k + page ≤ 2 ^ 32 := by
    rw [total, ← Nat.mul_succ]
    exact Nat.mul_le_mul_left page below
  have fits : page * k + (page - 1) < 4294967296 := by omega
  rw [roundPage, Nat.mod_eq_of_lt fits, Nat.mul_add_div positive,
    Nat.div_eq_of_lt (Nat.sub_lt positive Nat.one_pos), Nat.add_zero, Nat.mul_comm]

theorem truncPage_of_dvd (aligned : page ∣ x) : truncPage page x = x :=
  Nat.div_mul_cancel aligned

theorem moveSize_dvd (whole : page ∣ 2 ^ 32) (srcAddr numBytes : ℕ) :
    page ∣ moveSize page srcAddr numBytes := by
  have whole : page ∣ 4294967296 := whole
  rw [moveSize, sub32, Nat.dvd_mod_iff whole]
  exact Nat.dvd_sub (Nat.dvd_add (Nat.dvd_mul_left page _) whole) (Nat.dvd_mul_left page _)

theorem moveSize_lt (page srcAddr numBytes : ℕ) : moveSize page srcAddr numBytes < 2 ^ 32 := by
  rw [moveSize, sub32]
  omega

/-- The search returns the address that it starts at, or the end of an entry. -/
theorem firstFit_place {max : ℕ} {rest : List (Entry O)} {pointer : Option ℕ}
    {found : Option ℕ × ℕ} (fit : firstFit id max size pointer start rest = some found) :
    found.2 = start ∨ ∃ e ∈ rest, found.2 = e.stop := by
  induction rest generalizing start pointer with
  | nil =>
    rw [firstFit] at fit
    split_ifs at fit
    cases fit
    exact .inl rfl
  | cons next rest ih =>
    rw [firstFit] at fit
    split_ifs at fit
    · cases fit
      exact .inl rfl
    · rcases ih fit with here | ⟨e, mem, here⟩
      · exact .inr ⟨next, List.mem_cons_self, here⟩
      · exact .inr ⟨e, List.mem_cons_of_mem _ mem, here⟩

theorem VmMap.Inv.findSpace_aligned (inv : map.Inv) {length : ℕ} (aligned : map.PageAligned page)
    (found : (map.findSpace map.minOffset length).1 = some start) : page ∣ start := by
  obtain ⟨pre, rest, eq, last, cut, -, -⟩ := inv.freeStart
  simp only [VmMap.findSpace, if_neg (lt_irrefl map.minOffset), if_true, cut] at found
  split_ifs at found
  cases fit : firstFit id map.maxOffset length map.firstFree map.freeStart rest with
  | none =>
    rw [fit] at found
    cases found
  | some result =>
    rw [fit] at found
    cases found
    rcases firstFit_place fit with here | ⟨e, mem, here⟩
    · rw [here, VmMap.freeStart]
      split
      · exact aligned.1
      next id hint =>
      obtain ⟨e, mem, rfl⟩ := List.mem_map.mp (inv.firstFree id hint)
      rw [stopOf_eq map inv.list.distinct mem]
      exact aligned.2 e mem
    · rw [here]
      exact aligned.2 e (by rw [eq]; exact List.mem_append_right _ mem)

/-- The range that `vm_allocate` finds consists of whole free pages. -/
theorem VmMap.Inv.allocate (inv : map.Inv) (positive : 0 < page)
    (whole : page ∣ 2 ^ 32) (aligned : map.PageAligned page) (pages : page ∣ size)
    (small : size < 2 ^ 32) (high : map.maxOffset < 2 ^ 32) :
    (map.vmAllocate zalloc coalesce page 0 size true).2.2.Inv ∧
      (map.vmAllocate zalloc coalesce page 0 size true).2.2.minOffset = map.minOffset ∧
      (map.vmAllocate zalloc coalesce page 0 size true).2.2.maxOffset = map.maxOffset ∧
      ((map.vmAllocate zalloc coalesce page 0 size true).1 ≠ .success →
        ∀ a, (map.vmAllocate zalloc coalesce page 0 size true).2.2.view a = map.view a) ∧
      ((map.vmAllocate zalloc coalesce page 0 size true).1 = .success →
        ∃ start, (map.vmAllocate zalloc coalesce page 0 size true).2.1 = start ∧ page ∣ start ∧
          start + size < 2 ^ 32 ∧ (size ≠ 0 → map.Free start (start + size)) ∧
          ∀ a, ¬ (start ≤ a ∧ a < start + size) →
            (map.vmAllocate zalloc coalesce page 0 size true).2.2.view a = map.view a) := by
  rw [VmMap.vmAllocate, if_pos rfl]
  split_ifs with empty
  · exact ⟨inv, rfl, rfl, fun failed => absurd rfl failed, fun _ =>
      ⟨0, rfl, Nat.dvd_zero page, by omega, fun some => absurd empty some, fun _ _ => rfl⟩⟩
  rw [roundPage_of_dvd positive whole pages small]
  obtain ⟨kept, outcome⟩ := inv.find zalloc coalesce none 0 map.minOffset small true
  obtain ⟨min, max⟩ := inv.find_bounds zalloc coalesce none 0 map.minOffset small true
  refine ⟨kept, min, max, fun failed a => ?_, fun success => ?_⟩
  · rcases outcome with ⟨-, same, -⟩ | ⟨start, success, -⟩
    · exact same a
    · exact absurd success failed
  rcases outcome with ⟨failed, -⟩ | ⟨start, -, here, -, free, mapped⟩
  · exact absurd success failed
  refine ⟨start, here, ?_, free.2.1.trans_lt high, fun _ => free, mapped.1⟩
  rcases inv.find_true zalloc coalesce none 0 map.minOffset (Nat.pos_of_ne_zero empty) small
    high with ⟨-, noSpace⟩ | ⟨start', -, found, -, here'⟩
  · rw [success] at noSpace
    cases noSpace
  · rw [← here, here']
    exact inv.findSpace_aligned aligned found

/-- `vm_deallocate` unmaps a range of whole pages inside of the map. -/
theorem VmMap.Inv.deallocate (inv : map.Inv)
    (positive : 0 < page) (whole : page ∣ 2 ^ 32) (aligned : page ∣ start) (pages : page ∣ size)
    (small : start + size < 2 ^ 32)
    (mem : size ≠ 0 → map.minOffset ≤ start ∧ start + size ≤ map.maxOffset) (a : ℕ) :
    (map.vmDeallocate page start size).2.view a =
      if start ≤ a ∧ a < start + size then none else map.view a := by
  rw [VmMap.vmDeallocate]
  by_cases empty : size = 0
  · rw [if_pos empty, if_neg (by omega)]
  obtain ⟨low, high⟩ := mem empty
  rw [if_neg empty, truncPage_of_dvd aligned, Nat.mod_eq_of_lt small,
    roundPage_of_dvd positive whole (Nat.dvd_add aligned pages) small, VmMap.vmMapRemove,
    VmMap.rangeCheck]
  simp only [if_neg (not_lt.mpr low), if_neg (not_lt.mpr high),
    if_neg (show ¬ start + size < start by omega)]
  exact (inv.delete start (start + size)).2.2 a

/-- When a failed `vm_move` changes nothing. -/
theorem vmMove_unchanged (inv : ∀ m, (maps m).isMainMap = true → (maps m).Inv) (positive : 0 < page)
    (whole : page ∣ 2 ^ 32) (src dst : M) (main : (maps dst).isMainMap = true)
    (aligned : (maps dst).PageAligned page) (high : (maps dst).maxOffset < 2 ^ 32)
    (srcAddr numBytes : ℕ) (srcDealloc : Bool)
    (failed : (vmMove zalloc coalesce copyRange page maps src srcAddr dst numBytes srcDealloc).1 ≠
      .success) :
    Unchanged maps
        (vmMove zalloc coalesce copyRange page maps src srcAddr dst numBytes srcDealloc).2.2 ↔
      ((maps dst).vmAllocate zalloc coalesce page 0 (moveSize page srcAddr numBytes) true).1 ≠
          .success ∨
        2 ^ 32 ≤ truncPage page srcAddr + moveSize page srcAddr numBytes ∨ srcDealloc = false ∨
        (maps src).Unmapped (truncPage page srcAddr)
          (truncPage page srcAddr + moveSize page srcAddr numBytes) := by
  have pages := moveSize_dvd whole srcAddr numBytes
  have small := moveSize_lt page srcAddr numBytes
  obtain ⟨kept, min, max, refused, granted⟩ :=
    (inv dst main).allocate zalloc coalesce positive whole aligned pages small high
  rw [vmMove] at failed ⊢
  by_cases nothing : numBytes = 0
  · rw [if_pos nothing] at failed
    exact absurd rfl failed
  rw [if_neg nothing] at failed ⊢
  generalize moveSize page srcAddr numBytes = size at *
  generalize truncPage page srcAddr = srcStart at *
  generalize (maps dst).vmAllocate zalloc coalesce page 0 size true = allocated at *
  obtain ⟨result, dstStart, map⟩ := allocated
  rw [moveTo] at failed ⊢
  by_cases success : result = .success
  swap
  · -- nothing is allocated
    rw [if_neg success]
    refine iff_of_true (fun m a => ?_) (.inl success)
    show (update maps dst map m).view a = _
    by_cases here : m = dst
    · subst here
      rw [update_self]
      exact refused success a
    · rw [update_of_ne here]
  rw [or_iff_right (not_not.mpr success)]
  obtain ⟨_, rfl, startPages, fits, free, outside⟩ := granted success
  -- the maps after the allocation
  have inv' : ∀ m, (update maps dst map m).isMainMap = true →
      (update maps dst map m).Inv := by
    intro m main
    by_cases here : m = dst
    · subst here
      rw [update_self]
      exact kept
    · rw [update_of_ne here] at main ⊢
      exact inv m main
  have before (m : M) (a : ℕ) (other : ¬ (m = dst ∧ dstStart ≤ a ∧ a < dstStart + size)) :
      (update maps dst map m).view a = (maps m).view a := by
    by_cases here : m = dst
    · subst here
      rw [update_self]
      exact outside a fun mem => other ⟨rfl, mem⟩
    · rw [update_of_ne here]
  rw [if_pos success] at failed ⊢
  have keeps := fun failed => vmMapCopy_kept zalloc coalesce copyRange inv' dst src dstStart size
    srcStart false srcDealloc failed (m := dst) (by rw [update_self]; exact kept)
  have view := vmMapCopy_view zalloc coalesce copyRange inv' dst src dstStart size srcStart false
    srcDealloc
  have stays := vmMapCopy_failed zalloc coalesce copyRange inv' dst src dstStart size srcStart false
    srcDealloc
  generalize vmMapCopy zalloc coalesce copyRange (update maps dst map) dst src dstStart
    size srcStart false srcDealloc = copied at *
  obtain ⟨result', maps'⟩ := copied
  dsimp only at keeps view stays
  rw [finishMove] at failed ⊢
  by_cases copied : result' = .success
  · rw [if_pos copied] at failed
    exact absurd copied failed
  rw [if_neg copied]
  show Unchanged maps (update maps' dst ((maps' dst).vmDeallocate page dstStart size).2) ↔ _
  obtain ⟨destInv, destMin, destMax⟩ := keeps copied
  rw [update_self] at destMin destMax
  have undo := destInv.deallocate positive whole startPages pages fits fun some => by
    rw [destMin, destMax, min, max]
    exact ⟨(free some).1, (free some).2.1⟩
  -- the destination was free before, and is free again
  have undone (m : M) (a : ℕ) (destroyed : Prop) [Decidable destroyed] (left : (maps' m).view a =
        if destroyed then none else (update maps dst map m).view a) :
      (update maps' dst ((maps' dst).vmDeallocate page dstStart size).2 m).view a =
        if destroyed then none else (maps m).view a := by
    by_cases mem : m = dst ∧ dstStart ≤ a ∧ a < dstStart + size
    · obtain ⟨rfl, mem⟩ := mem
      rw [update_self, undo, if_pos mem, (free (by omega)).2.2.2 a mem.1 mem.2, ite_self]
    rw [← before m a mem, ← left]
    by_cases here : m = dst
    · subst here
      rw [update_self, undo, if_neg fun within => mem ⟨rfl, within⟩]
    · rw [update_of_ne here]
  by_cases wraps : 2 ^ 32 ≤ srcStart + size
  · refine iff_of_true (fun m a => ?_) (.inl wraps)
    rcases stays copied with ⟨-, same⟩ | ⟨fits, -⟩
    · rw [undone m a False (by rw [same, if_neg not_false]), if_neg not_false]
    · omega
  · rw [or_iff_right wraps]
    exact unchanged_iff fun m a => undone m a _ (view ⟨fits, by omega⟩ copied m a)

/-! ## Failures -/

/-- A `vm_map_copy` that fails changes nothing, unless it has been asked to destroy the source: then
it changes nothing if the addresses wrap around, or if nothing is mapped in the source range, and
only then.  So does `vm_write`, which always asks for that but checks for whole pages before, and
`vm_move`, for maps made of whole pages, if it has found space for the destination. -/
theorem vmMapCopy_failure (maps : M → VmMap O)
    (inv : ∀ m, (maps m).isMainMap = true → (maps m).Inv) (dst src : M) :
    (∀ (dstAddr len srcAddr : BitVec 32) (dstAlloc srcDestroy : Bool),
      (vmMapCopy zalloc coalesce copyRange maps dst src dstAddr.toNat len.toNat srcAddr.toNat
        dstAlloc srcDestroy).1 ≠ .success →
      (Unchanged maps (vmMapCopy zalloc coalesce copyRange maps dst src dstAddr.toNat len.toNat
          srcAddr.toNat dstAlloc srcDestroy).2 ↔
        2 ^ 32 ≤ dstAddr.toNat + len.toNat ∨ 2 ^ 32 ≤ srcAddr.toNat + len.toNat ∨
          srcDestroy = false ∨
          (maps src).Unmapped srcAddr.toNat (srcAddr.toNat + len.toNat))) ∧
    (∀ (page : ℕ) (address data size : BitVec 32),
      (vmWrite zalloc coalesce copyRange page maps src dst address.toNat data.toNat size.toNat).1 ≠
        .success →
      (Unchanged maps (vmWrite zalloc coalesce copyRange page maps src dst address.toNat data.toNat
          size.toNat).2 ↔
        (roundPage page address.toNat ≠ address.toNat ∨ roundPage page size.toNat ≠ size.toNat) ∨
          2 ^ 32 ≤ address.toNat + size.toNat ∨ 2 ^ 32 ≤ data.toNat + size.toNat ∨
          (maps src).Unmapped data.toNat (data.toNat + size.toNat))) ∧
    ∀ (page : ℕ), 0 < page → page ∣ 2 ^ 32 → (maps dst).isMainMap = true →
      (maps dst).PageAligned page → (maps dst).maxOffset < 2 ^ 32 →
      ∀ (srcAddr numBytes : BitVec 32) (srcDealloc : Bool),
        (vmMove zalloc coalesce copyRange page maps src srcAddr.toNat dst numBytes.toNat
          srcDealloc).1 ≠ .success →
        (Unchanged maps (vmMove zalloc coalesce copyRange page maps src srcAddr.toNat dst
            numBytes.toNat srcDealloc).2.2 ↔
          ((maps dst).vmAllocate zalloc coalesce page 0
              (moveSize page srcAddr.toNat numBytes.toNat) true).1 ≠ .success ∨
            2 ^ 32 ≤ truncPage page srcAddr.toNat + moveSize page srcAddr.toNat numBytes.toNat ∨
            srcDealloc = false ∨
            (maps src).Unmapped (truncPage page srcAddr.toNat)
              (truncPage page srcAddr.toNat + moveSize page srcAddr.toNat numBytes.toNat)) := by
  refine ⟨?_, ?_, ?_⟩
  · intro dstAddr len srcAddr dstAlloc srcDestroy failed
    exact vmMapCopy_unchanged zalloc coalesce copyRange inv dst src dstAddr len srcAddr dstAlloc
      srcDestroy failed
  · intro page address data size failed
    exact vmWrite_unchanged zalloc coalesce copyRange inv page src dst address data size failed
  · intro page positive whole main aligned high srcAddr numBytes srcDealloc failed
    exact vmMove_unchanged zalloc coalesce copyRange inv positive whole src dst main aligned high
      srcAddr.toNat numBytes.toNat srcDealloc failed

end Copy

/-- A map with one page, and an empty one. -/
def copySample : Bool → VmMap Unit
  | false => sampleRun (vmMapCreate Unit 0x1000 0xfffff000) [.find none 0 0x2000 0x1000 true]
  | true => vmMapCreate Unit 0x1000 0xfffff000

theorem copySample_inv (m : Bool) : (copySample m).Inv := by
  cases m with
  | false =>
    exact ((vmMapCreate_inv 0x1000 0xfffff000).step (fun _ => sampleEntry) (fun _ => false)
      (.find none 0 0x2000 0x1000 true) trivial trivial).1
  | true => exact vmMapCreate_inv 0x1000 0xfffff000

/-- The destination is not mapped: the copy fails, and it changes something if and only if it has
been asked to destroy the source; a `vm_move` of two pages fails as only one is mapped. -/
theorem vmMapCopy_failure_sample :
    Unchanged copySample (vmMapCopy (fun _ => sampleEntry) (fun _ => false) id copySample true false
      0x5000 0x1000 0x2000 false false).2 ∧
    ¬ Unchanged copySample (vmMapCopy (fun _ => sampleEntry) (fun _ => false) id copySample true
      false 0x5000 0x1000 0x2000 false true).2 ∧
    ¬ Unchanged copySample (vmWrite (fun _ => sampleEntry) (fun _ => false) id 0x1000 copySample
      false true 0x5000 0x2000 0x1000).2 ∧
    Unchanged copySample (vmMove (fun _ => sampleEntry) (fun _ => false) id 0x1000 copySample false
      0x2000 true 0x2000 false).2.2 := by
  have failure := vmMapCopy_failure (fun _ => sampleEntry) (fun _ => false) id copySample
    (fun m _ => copySample_inv m) true false
  have mapped : ¬ (copySample false).Unmapped 0x2000 (0x2000 + 0x1000) := fun unmapped =>
    absurd (congrArg Option.isSome (unmapped 0x2000 (by decide) (by decide))) (by decide +kernel)
  refine ⟨?_, ?_, ?_, ?_⟩
  · exact (failure.1 0x5000 0x1000 0x2000 false false (by decide +kernel)).mpr
      (.inr (.inr (.inl rfl)))
  · intro same
    rcases (failure.1 0x5000 0x1000 0x2000 false true (by decide +kernel)).mp same with
      wraps | wraps | kept | unmapped
    · exact absurd wraps (by decide)
    · exact absurd wraps (by decide)
    · cases kept
    · exact mapped unmapped
  · intro same
    rcases (failure.2.1 0x1000 0x5000 0x2000 0x1000 (by decide +kernel)).mp same with
      misaligned | wraps | wraps | unmapped
    · exact absurd misaligned (by decide)
    · exact absurd wraps (by decide)
    · exact absurd wraps (by decide)
    · exact mapped unmapped
  · refine (failure.2.2 0x1000 (by decide) (by decide) rfl ⟨by decide, fun e mem => ?_⟩
      (by decide) 0x2000 0x2000 false (by decide +kernel)).mpr (.inr (.inr (.inl rfl)))
    cases mem

/-- The copy fails as the destination is not mapped, and the page of the source is gone. -/
theorem vmMapCopy_destroys :
    (∀ m, (copySample m).Inv) ∧
    (vmMapCopy (fun _ => sampleEntry) (fun _ => false) id copySample true false 0x5000 0x1000 0x2000
      false true).1 = .protectionFailure ∧
    ((copySample false).view 0x2000).isSome = true ∧
    ((vmMapCopy (fun _ => sampleEntry) (fun _ => false) id copySample true false 0x5000 0x1000
      0x2000 false true).2 false).view 0x2000 = none := by
  refine ⟨copySample_inv, by decide +kernel, by decide +kernel, ?_⟩
  exact Option.isNone_iff_eq_none.mp (by decide +kernel)

end Darwin.Vm.Map
