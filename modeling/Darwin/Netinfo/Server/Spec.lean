import Darwin.Netinfo.Server.Requests

/-!
# What the layers below the requests do

The directories of a store are the records that hold an object under its own id.  Finding, checking
and allocating ids changes no directory; the specifications here say so, and which id is found.

## Main definitions

* `Store.dir` - the directory with an id
* `Sound` - the cache and the array of instances agree with the files
* `Quiet` - a change that no directory takes part in
-/

namespace Darwin.Netinfo

open Option Store
open Function (update update_of_ne update_self)

variable {s s' s'' : Store} {w : Writes} {i j : ℕ} {obj : Object} {id : Id}

/-- The directory with an id, as the files have it. -/
def Store.dir (s : Store) (i : ℕ) : Option Object :=
  if i < s.highestId then
    match s.records i with
    | .decoded obj => if obj.id.object = i then some obj else none
    | .unreadable _ => none
  else none

/-- The instance that the files keep for an id, whether it is free or not. -/
def Store.stored (s : Store) (i : ℕ) : ℕ := (s.records i).header.inst

/-- Records are about their own ids, and what memory holds of a directory agrees with its record. -/
structure Sound (s : Store) : Prop where
  sized : s.blocksize = 256 ∨ s.blocksize = 512
  bounded : s.highestId * s.blocksize ≤ 2 ^ 31
  own : ∀ i < s.highestId, (s.records i).header.object = i ∨
    ∃ obj, s.records i = .decoded obj ∧ obj.id.object = dbFree
  coherent : ∀ i obj, s.cache i = some obj → s.dir i = some obj
  known : ∀ i obj, s.dir i = some obj → s.instances i = obj.id.inst ∨ s.instances i = niUnchecked

theorem Sound.highestId_lt (sound : Sound s) : s.highestId < niIndexNull := by
  have bounded := sound.bounded
  have null : niIndexNull = 2 ^ 32 - 1 := rfl
  rcases sound.sized with small | big
  · rw [small] at bounded
    omega
  · rw [big] at bounded
    omega

theorem Sound.ne_null (sound : Sound s) (below : i < s.highestId) : i ≠ niIndexNull :=
  Nat.ne_of_lt (Nat.lt_trans below sound.highestId_lt)

/-- No directory has the instance that marks a free id. -/
def Marked (s : Store) : Prop := ∀ i obj, s.dir i = some obj → obj.id.inst ≠ niIndexNull

theorem dir_eq_some_iff : s.dir i = some obj ↔
    i < s.highestId ∧ s.records i = .decoded obj ∧ obj.id.object = i := by
  unfold dir
  constructor
  · intro found
    split at found
    case isFalse => cases found
    rename_i below
    split at found
    case h_2 => cases found
    rename_i obj' record
    split at found
    case isFalse => cases found
    rename_i own
    cases found
    exact ⟨below, record, own⟩
  · rintro ⟨below, record, own⟩
    rw [if_pos below, record]
    exact if_pos own

theorem id_of_dir (found : s.dir i = some obj) : obj.id.object = i := (dir_eq_some_iff.mp found).2.2

theorem lt_of_dir (found : s.dir i = some obj) : i < s.highestId := (dir_eq_some_iff.mp found).1

theorem stored_of_dir (found : s.dir i = some obj) : s.stored i = obj.id.inst := by
  rw [stored, (dir_eq_some_iff.mp found).2.1]
  rfl

/-! ## Changes of memory only -/

section Memory

theorem dir_setInstance (n : ℕ) : (s.setInstance i n).dir = s.dir := rfl

theorem stored_setInstance (n : ℕ) : (s.setInstance i n).stored = s.stored := rfl

theorem dir_setCache (o : Option Object) : (s.setCache i o).dir = s.dir := rfl

/-- A change after which all directories and instances are as before, the cache holds nothing new
and new ids are free. -/
structure Quiet (s s' : Store) : Prop where
  blocksize : s'.blocksize = s.blocksize
  highest : s.highestId ≤ s'.highestId
  dir : s'.dir = s.dir
  stored : ∀ i < s.highestId, s'.stored i = s.stored i
  cache : ∀ i obj, s'.cache i = some obj → s.cache i = some obj
  commits : s'.commits = s.commits
  leaked : s.leaked ⊆ s'.leaked
  sound : Sound s → Sound s'

theorem Quiet.refl (s : Store) : Quiet s s where
  blocksize := rfl
  highest := Nat.le_refl _
  dir := rfl
  stored := fun _ _ => rfl
  cache := fun _ _ found => found
  commits := rfl
  leaked := fun _ leaked => leaked
  sound := id

theorem Quiet.trans (first : Quiet s s') (second : Quiet s' s'') : Quiet s s'' where
  blocksize := second.blocksize.trans first.blocksize
  highest := Nat.le_trans first.highest second.highest
  dir := second.dir.trans first.dir
  stored := by
    intro i below
    rw [second.stored i (Nat.lt_of_lt_of_le below first.highest), first.stored i below]
  cache := fun i obj found => first.cache i obj (second.cache i obj found)
  commits := second.commits.trans first.commits
  leaked := fun _ leaked => second.leaked (first.leaked leaked)
  sound := fun sound => second.sound (first.sound sound)

/-- Setting the instance of an id to what its directory says. -/
theorem Quiet.setInstance {n : ℕ}
    (right : ∀ obj, s.dir i = some obj → n = obj.id.inst) : Quiet s (s.setInstance i n) where
  blocksize := rfl
  highest := Nat.le_refl _
  dir := rfl
  stored := fun _ _ => rfl
  cache := fun _ _ found => found
  commits := rfl
  leaked := fun _ leaked => leaked
  sound := by
    intro sound
    refine ⟨sound.sized, sound.bounded, sound.own, sound.coherent, ?_⟩
    intro j obj found
    rw [dir_setInstance] at found
    by_cases same : j = i
    · subst same
      exact .inl (by rw [instances_setInstance, update_self, right obj found])
    · rw [instances_setInstance, update_of_ne same]
      exact sound.known j obj found

theorem Quiet.leak : Quiet s (s.leak i) where
  blocksize := rfl
  highest := Nat.le_refl _
  dir := rfl
  stored := fun _ _ => rfl
  cache := fun _ _ found => found
  commits := rfl
  leaked := fun _ leaked => List.mem_cons_of_mem _ leaked
  sound := fun sound => ⟨sound.sized, sound.bounded, sound.own, sound.coherent, sound.known⟩

theorem Quiet.uncache : Quiet s (s.setCache i none) where
  blocksize := rfl
  highest := Nat.le_refl _
  dir := rfl
  stored := fun _ _ => rfl
  cache := by
    intro j obj found
    by_cases same : j = i
    · subst same
      rw [cache_setCache, update_self] at found
      cases found
    · rw [cache_setCache, update_of_ne same] at found
      exact found
  commits := rfl
  leaked := fun _ leaked => leaked
  sound := by
    intro sound
    refine ⟨sound.sized, sound.bounded, sound.own, ?_, sound.known⟩
    intro j obj found
    by_cases same : j = i
    · subst same
      rw [cache_setCache, update_self] at found
      cases found
    · rw [cache_setCache, update_of_ne same] at found
      exact sound.coherent j obj found

end Memory

/-! ## Reading -/

section Reading

/-- `file_read` finds the directory, or `NI_BADID`. -/
theorem fileRead_spec (sound : Sound s) :
    (s.fileRead i).1 = (match s.dir i with | some obj => .ok obj | none => .error .badid) ∧
      Quiet s (s.fileRead i).2 ∧ (s.fileRead i).2.records = s.records ∧
      (s.fileRead i).2.highestId = s.highestId := by
  unfold Store.fileRead Store.dir
  by_cases below : i < s.highestId
  · rw [if_neg (Nat.not_le_of_lt below), if_pos below]
    cases record : s.records i with
    | unreadable header => exact ⟨rfl, Quiet.refl s, rfl, rfl⟩
    | decoded obj =>
      have other_free : obj.id.object ≠ i → obj.id.object = dbFree := by
        intro other
        rcases sound.own i below with own | ⟨obj', record', free⟩
        · rw [record] at own
          exact absurd own other
        · rw [record] at record'
          cases record'
          exact free
      have not_dir : obj.id.object ≠ i → ∀ obj', s.dir i = some obj' →
          niIndexNull = obj'.id.inst := by
        intro other obj' found
        obtain ⟨-, record', own⟩ := dir_eq_some_iff.mp found
        rw [record] at record'
        cases record'
        exact absurd own other
      have small : i ≠ dbFree := sound.ne_null below
      by_cases own : obj.id.object = i
      · have allocated : obj.id.object ≠ dbFree := fun free => small (own ▸ free)
        simp only [if_neg allocated, if_neg (not_not.mpr own), if_pos own]
        refine ⟨trivial, Quiet.setInstance ?_, rfl, rfl⟩
        intro obj' found
        obtain ⟨-, record', -⟩ := dir_eq_some_iff.mp found
        rw [record] at record'
        cases record'
        rfl
      · simp only [if_pos (other_free own), if_neg own]
        exact ⟨trivial, Quiet.setInstance (not_dir own), rfl, rfl⟩
  · rw [if_pos (Nat.le_of_not_lt below), if_neg below]
    exact ⟨rfl, Quiet.refl s, rfl, rfl⟩

/-- The results of `obj_lookup` for writing. -/
def Store.lookupResult (s : Store) (id : Id) : Except Status Object :=
  match s.dir id.object with
  | none => .error .badid
  | some obj => if obj.id.inst = id.inst then .ok obj else .error .stale

theorem lookupResult_eq_ok_iff :
    s.lookupResult id = .ok obj ↔ s.dir id.object = some obj ∧ obj.id = id := by
  unfold lookupResult
  cases found : s.dir id.object with
  | none => simp
  | some obj' =>
    have own := id_of_dir found
    by_cases current : obj'.id.inst = id.inst
    · simp only [if_pos current, Except.ok.injEq, some.injEq]
      constructor
      · rintro rfl
        exact ⟨rfl, Id.ext own current⟩
      · exact And.left
    · simp only [if_neg current, some.injEq, reduceCtorEq, false_iff]
      rintro ⟨rfl, same⟩
      exact current (congrArg Id.inst same)

/-- `obj_lookup` for writing finds the directory if the client's id is up to date, whether the
object was cached or not, and takes it out of the cache. -/
theorem objLookupWrite_spec (sound : Sound s) :
    (s.objLookupWrite id).1 = s.lookupResult id ∧ Quiet s (s.objLookupWrite id).2 ∧
      (s.objLookupWrite id).2.cache id.object = none ∧
      (s.objLookupWrite id).2.records = s.records ∧
      (s.objLookupWrite id).2.highestId = s.highestId := by
  unfold objLookupWrite lookupResult
  cases cached : s.cache id.object with
  | some obj =>
    rw [sound.coherent id.object obj cached]
    have removed : (s.setCache id.object none).cache id.object = none := by
      rw [cache_setCache, update_self]
    by_cases current : obj.id.inst = id.inst
    · simp only [current, ne_eq, not_true_eq_false, if_false, if_true]
      exact ⟨trivial, Quiet.uncache, removed, rfl, rfl⟩
    · simp only [ne_eq, current, not_false_eq_true, if_true, if_false]
      exact ⟨trivial, Quiet.uncache, removed, rfl, rfl⟩
  | none =>
    obtain ⟨result, quiet, records, highest⟩ := fileRead_spec (i := id.object) sound
    have uncached : (s.fileRead id.object).2.cache id.object = none := by
      cases still : (s.fileRead id.object).2.cache id.object with
      | none => rfl
      | some obj =>
        rw [quiet.cache id.object obj still] at cached
        cases cached
    generalize read : s.fileRead id.object = found at *
    obtain ⟨r, s'⟩ := found
    simp only at result quiet uncached records highest ⊢
    subst result
    cases s.dir id.object with
    | none => exact ⟨rfl, quiet, uncached, records, highest⟩
    | some obj =>
      by_cases current : obj.id.inst = id.inst
      · simp only [current, ne_eq, not_true_eq_false, if_false, if_true]
        exact ⟨trivial, quiet, uncached, records, highest⟩
      · simp only [ne_eq, current, not_false_eq_true, if_true, if_false]
        exact ⟨trivial, quiet, uncached, records, highest⟩

/-- `obj_lookup` for reading finds the directory, and keeps it in the cache. -/
theorem objLookupRead_spec (sound : Sound s) :
    (s.objLookupRead i).1 = (match s.dir i with | some obj => .ok obj | none => .error .badid) ∧
      Sound (s.objLookupRead i).2 ∧ (s.objLookupRead i).2.records = s.records ∧
      (s.objLookupRead i).2.highestId = s.highestId ∧
      (s.objLookupRead i).2.commits = s.commits ∧ s.leaked ⊆ (s.objLookupRead i).2.leaked := by
  unfold objLookupRead
  cases cached : s.cache i with
  | some obj =>
    rw [sound.coherent i obj cached]
    exact ⟨rfl, sound, rfl, rfl, rfl, fun _ leaked => leaked⟩
  | none =>
    obtain ⟨result, quiet, records, highest⟩ := fileRead_spec (i := i) sound
    generalize s.fileRead i = found at *
    obtain ⟨r, s'⟩ := found
    simp only at result quiet records highest ⊢
    subst result
    have sound' := quiet.sound sound
    cases there : s.dir i with
    | none => exact ⟨rfl, sound', records, highest, quiet.commits, quiet.leaked⟩
    | some obj =>
      refine ⟨rfl, ⟨sound'.sized, sound'.bounded, sound'.own, ?_, sound'.known⟩, records, highest,
        quiet.commits, quiet.leaked⟩
      intro j obj' found
      rw [dir_setCache]
      simp only [cache_setCache] at found
      by_cases same : j = i
      · subst same
        rw [update_self] at found
        rw [← found, quiet.dir]
        exact there
      · rw [update_of_ne same] at found
        exact sound'.coherent j obj' found

theorem dir_congr (records : s'.records = s.records) (highest : s'.highestId = s.highestId) :
    s'.dir = s.dir := by
  funext j
  unfold dir
  rw [records, highest]

end Reading

/-! ## Records -/

section Records

variable {n : ℕ} {record : Record}

theorem dir_setRecord_ne (other : j ≠ i) : (s.setRecord i record).dir j = s.dir j := by
  unfold dir
  rw [records_setRecord, update_of_ne other, highestId_setRecord]

theorem dir_setRecord_free (small : i ≠ niIndexNull) :
    (s.setRecord i (.decoded (freeObject n))).dir = update s.dir i none := by
  funext j
  by_cases same : j = i
  · subst same
    rw [update_self, dir, records_setRecord, update_self]
    split
    · exact if_neg (Ne.symm small)
    · rfl
  · rw [update_of_ne same, dir_setRecord_ne same]

theorem dir_setRecord_own (below : i < s.highestId) (own : obj.id.object = i) :
    (s.setRecord i (.decoded obj)).dir = update s.dir i (some obj) := by
  funext j
  by_cases same : j = i
  · subst same
    rw [update_self, dir_eq_some_iff, records_setRecord, update_self]
    exact ⟨below, rfl, own⟩
  · rw [update_of_ne same, dir_setRecord_ne same]

/-- Marking an id that has no directory as free. -/
theorem Quiet.free (empty : s.dir i = none) (small : i ≠ niIndexNull) :
    Quiet s ((s.setRecord i (.decoded (freeObject (s.stored i)))).setInstance i n) where
  blocksize := rfl
  highest := Nat.le_refl _
  dir := by
    rw [dir_setInstance, dir_setRecord_free small, ← empty, Function.update_eq_self]
  stored := by
    intro j _
    rw [stored_setInstance, Store.stored, Store.records_setRecord]
    by_cases same : j = i
    · subst same
      rw [update_self]
      rfl
    · rw [update_of_ne same]
      rfl
  cache := fun _ _ found => found
  commits := rfl
  leaked := fun _ leaked => leaked
  sound := by
    intro sound
    have dir : ((s.setRecord i (.decoded (freeObject (s.stored i)))).setInstance i n).dir =
        s.dir := by
      rw [dir_setInstance, dir_setRecord_free small, ← empty, Function.update_eq_self]
    refine ⟨sound.sized, sound.bounded, ?_, ?_, ?_⟩
    · intro j below
      rw [records_setInstance, records_setRecord]
      by_cases same : j = i
      · subst same
        rw [update_self]
        exact .inr ⟨_, rfl, rfl⟩
      · rw [update_of_ne same]
        exact sound.own j below
    · rw [dir]
      exact sound.coherent
    intro j obj found
    rw [dir] at found
    have other : j ≠ i := by
      rintro rfl
      rw [empty] at found
      cases found
    rw [instances_setInstance, update_of_ne other]
    exact sound.known j obj found

end Records

/-! ## Allocation -/

section Allocation

theorem fileRead_of_dir (sound : Sound s) (found : s.dir i = some obj) :
    s.fileRead i = (.ok obj, s.setInstance i obj.id.inst) := by
  obtain ⟨below, record, own⟩ := dir_eq_some_iff.mp found
  have allocated : obj.id.object ≠ dbFree := by
    rw [own]
    exact sound.ne_null below
  unfold Store.fileRead
  rw [if_neg (Nat.not_le_of_lt below), record]
  simp only [if_neg allocated, if_neg (not_not.mpr own)]

/-- Looking at an id changes no directory, and the instance array then is right about the id. -/
theorem checkId_spec (sound : Sound s) (below : i < s.highestId) :
    Quiet s (s.checkId w i) ∧ (s.checkId w i).highestId = s.highestId ∧
      (s.checkId w i).instances i = (match s.dir i with
        | some obj => obj.id.inst
        | none => niIndexNull) := by
  have small : i ≠ niIndexNull := sound.ne_null below
  have absurd_dir : ∀ {t : Store} {n : ℕ}, t.dir i = none →
      ∀ obj, t.dir i = some obj → n = obj.id.inst := by
    intro t n empty obj found
    rw [empty] at found
    cases found
  unfold checkId
  by_cases marked : (s.records i).header.object = dbFree
  · -- the record says that the id is free
    have empty : s.dir i = none := by
      cases found : s.dir i with
      | none => rfl
      | some obj =>
        obtain ⟨-, record, own⟩ := dir_eq_some_iff.mp found
        rw [record] at marked
        exact absurd (own.symm.trans marked) small
    simp only [if_pos marked, empty]
    exact ⟨Quiet.setInstance (absurd_dir empty), rfl, update_self _ _ _⟩
  have own : (s.records i).header.object = i := by
    rcases sound.own i below with own | ⟨obj, record, free⟩
    · exact own
    · rw [record] at marked
      exact absurd free marked
  have header : (s.records i).header = ⟨i, s.stored i⟩ := Id.ext own rfl
  simp only [if_neg marked]
  rw [own]
  cases there : s.dir i with
  | some obj =>
    rw [fileRead_of_dir sound there]
    refine ⟨Quiet.setInstance ?_, rfl, update_self _ _ _⟩
    intro obj' found
    rw [there] at found
    cases found
    rfl
  | none =>
    obtain ⟨result, quiet, records, highest⟩ := fileRead_spec (i := i) sound
    generalize s.fileRead i = read at *
    obtain ⟨r, s'⟩ := read
    rw [there] at result
    simp only at result quiet records highest
    subst result
    have empty : s'.dir i = none := by rw [quiet.dir, there]
    simp only
    cases fails : w.delete i with
    | some status =>
      refine ⟨(quiet.trans Quiet.leak).trans (Quiet.setInstance (absurd_dir ?_)), highest,
        update_self _ _ _⟩
      exact empty
    | none =>
      have freed := Quiet.free (n := niIndexNull) empty small
      rw [quiet.stored i below] at freed
      have cleared : (s'.fileIdunalloc none (s.records i).header).2 =
          (s'.setRecord i (.decoded (freeObject (s.stored i)))).setInstance i niIndexNull := by
        rw [header]
        rfl
      rw [cleared]
      refine ⟨(quiet.trans freed).trans (Quiet.setInstance (absurd_dir ?_)), highest,
        update_self _ _ _⟩
      rw [freed.dir]
      exact empty

/-- `id_is_free` changes no directory, and takes no directory for free unless it has the instance
that marks free ids. -/
theorem idIsFree_spec (sound : Sound s) (below : i < s.highestId) :
    Quiet s (s.idIsFree w i).2 ∧ (s.idIsFree w i).2.highestId = s.highestId ∧
      ((s.idIsFree w i).1 = true → ∀ obj, s.dir i = some obj → obj.id.inst = niIndexNull) := by
  unfold idIsFree
  by_cases checked : s.instances i = niUnchecked
  · rw [if_neg (not_not.mpr checked)]
    obtain ⟨quiet, highest, right⟩ := checkId_spec (w := w) sound below
    refine ⟨quiet, highest, fun free obj found => ?_⟩
    rw [found] at right
    exact right.symm.trans (of_decide_eq_true free)
  · rw [if_pos checked]
    refine ⟨Quiet.refl s, rfl, fun free obj found => ?_⟩
    have null : s.instances i = niIndexNull := of_decide_eq_true free
    rcases sound.known i obj found with same | unchecked
    · rw [← same, null]
    · exact absurd unchecked checked

theorem findFree_spec {l : List ℕ} (sound : Sound s) (below : ∀ i ∈ l, i < s.highestId) :
    Quiet s (findFree w l s).2 ∧ (findFree w l s).2.highestId = s.highestId ∧
      ∀ i, (findFree w l s).1 = some i →
        i ∈ l ∧ ∀ obj, s.dir i = some obj → obj.id.inst = niIndexNull := by
  induction l generalizing s with
  | nil => exact ⟨Quiet.refl s, rfl, fun i found => by cases found⟩
  | cons i rest ih =>
    obtain ⟨quiet, highest, free⟩ := idIsFree_spec (w := w) sound (below i List.mem_cons_self)
    unfold findFree
    generalize s.idIsFree w i = result at *
    obtain ⟨b, s'⟩ := result
    cases b with
    | true =>
      refine ⟨quiet, highest, ?_⟩
      rintro i' same
      cases same
      exact ⟨List.mem_cons_self, free rfl⟩
    | false =>
      simp only at quiet highest ⊢
      have below' : ∀ j ∈ rest, j < s'.highestId := by
        intro j mem
        rw [highest]
        exact below j (List.mem_cons_of_mem i mem)
      obtain ⟨quiet', highest', found'⟩ := ih (quiet.sound sound) below'
      refine ⟨quiet.trans quiet', highest'.trans highest, ?_⟩
      intro j same
      obtain ⟨mem, null⟩ := found' j same
      rw [quiet.dir] at null
      exact ⟨List.mem_cons_of_mem i mem, null⟩

theorem succ_mul_le {n b k : ℕ} (whole : k * b = 2 ^ 31) (addressable : n * b < 2 ^ 31) :
    (n + 1) * b ≤ 2 ^ 31 := by
  rw [← whole] at *
  exact Nat.mul_le_mul_right b (Nat.lt_of_mul_lt_mul_right addressable)

/-- A record whose offset is a `long` ends within the largest file. -/
theorem room_of_addressable {n b : ℕ} (sized : b = 256 ∨ b = 512) (bounded : n * b ≤ 2 ^ 31)
    (addressable : ¬ 2 ^ 31 ≤ n * b % 2 ^ 32) : (n + 1) * b ≤ 2 ^ 31 := by
  have short : n * b < 2 ^ 32 := Nat.lt_of_le_of_lt bounded (by decide)
  rw [Nat.mod_eq_of_lt short] at addressable
  have addressable' := Nat.lt_of_not_le addressable
  rcases sized with rfl | rfl
  · exact succ_mul_le (show 2 ^ 23 * 256 = 2 ^ 31 by decide) addressable'
  · exact succ_mul_le (show 2 ^ 22 * 512 = 2 ^ 31 by decide) addressable'

/-- A new record at the end, which is free. -/
theorem Quiet.generate {inst n : ℕ} (small : s.highestId ≠ niIndexNull)
    (room : Sound s → (s.highestId + 1) * s.blocksize ≤ 2 ^ 31) :
    Quiet s { (s.setRecord s.highestId (.decoded (freeObject inst))).setInstance s.highestId n with
      highestId := s.highestId + 1 } := by
  have dir : Store.dir { (s.setRecord s.highestId (.decoded (freeObject inst))).setInstance
      s.highestId n with highestId := s.highestId + 1 } = s.dir := by
    funext j
    unfold Store.dir
    by_cases last : j = s.highestId
    · subst last
      simp only [Store.records_setInstance, Store.records_setRecord, update_self]
      rw [if_neg (Nat.lt_irrefl _), if_pos (Nat.lt_succ_self _)]
      exact if_neg (Ne.symm small)
    · simp only [Store.records_setInstance, Store.records_setRecord, update_of_ne last]
      by_cases below : j < s.highestId
      · rw [if_pos below, if_pos (Nat.lt_succ_of_lt below)]
      · rw [if_neg below, if_neg]
        exact fun more => (Nat.lt_succ_iff_lt_or_eq.mp more).elim below last
  constructor
  case blocksize => rfl
  case highest => exact Nat.le_succ _
  case dir => exact dir
  case stored =>
    intro j below
    simp only [Store.stored, Store.records_setInstance, Store.records_setRecord,
      update_of_ne (Nat.ne_of_lt below)]
  case cache => exact fun _ _ found => found
  case commits => rfl
  case leaked => exact fun _ leaked => leaked
  case sound =>
    intro sound
    refine ⟨sound.sized, room sound, ?_, ?_, ?_⟩
    · intro j below
      simp only [Store.records_setInstance, Store.records_setRecord]
      rcases Nat.lt_succ_iff_lt_or_eq.mp below with old | rfl
      · rw [update_of_ne (Nat.ne_of_lt old)]
        exact sound.own j old
      · rw [update_self]
        exact .inr ⟨_, rfl, rfl⟩
    · rw [dir]
      exact sound.coherent
    intro j obj found
    rw [dir] at found
    simp only [Store.instances_setInstance, update_of_ne (Nat.ne_of_lt (lt_of_dir found))]
    exact sound.known j obj found

/-- What an allocation comes to: the id is a valid one and no directory has it, unless that has the
instance that marks free ids. -/
structure Allocated (s s' : Store) (id : Id) : Prop where
  below : id.object < s'.highestId
  empty : ∀ obj, s.dir id.object = some obj → obj.id.inst = niIndexNull

/-- The ids that were added have the instance 0. -/
def Zeroed (s s' : Store) : Prop := ∀ j, s.highestId ≤ j → j < s'.highestId → s'.stored j = 0

theorem Zeroed.of_highest (highest : s'.highestId = s.highestId) : Zeroed s s' := by
  intro j from_highest below
  rw [highest] at below
  exact absurd below (Nat.not_lt_of_le from_highest)

theorem fileGenerate_zeroed : Zeroed s (s.fileGenerate w 0).2 := by
  unfold fileGenerate
  split
  · exact Zeroed.of_highest rfl
  cases w.generate s.highestId with
  | some status => exact Zeroed.of_highest rfl
  | none =>
    intro j from_highest below
    obtain rfl : j = s.highestId := Nat.le_antisymm (Nat.lt_succ_iff.mp below) from_highest
    simp only [stored, records_setInstance, records_setRecord, update_self]
    rfl

theorem fileGenerate_spec {inst : ℕ} (sound : Sound s) :
    Quiet s (s.fileGenerate w inst).2 ∧ ∀ id, (s.fileGenerate w inst).1 = .ok id →
      id = ⟨s.highestId, inst⟩ ∧ (s.fileGenerate w inst).2.highestId = s.highestId + 1 ∧
        (s.fileGenerate w inst).2.stored s.highestId = inst := by
  unfold fileGenerate
  split
  case isTrue => exact ⟨Quiet.refl s, fun id ok => by cases ok⟩
  rename_i addressable
  cases w.generate s.highestId with
  | some status => exact ⟨Quiet.refl s, fun id ok => by cases ok⟩
  | none =>
    have room := room_of_addressable sound.sized sound.bounded addressable
    refine ⟨Quiet.generate (Nat.ne_of_lt sound.highestId_lt) fun _ => room, fun id ok => ?_⟩
    injection ok with same
    refine ⟨same.symm, rfl, ?_⟩
    simp only [stored, records_setInstance, records_setRecord, update_self]
    rfl

theorem dir_highestId : s.dir s.highestId = none := by
  cases found : s.dir s.highestId with
  | none => rfl
  | some obj => exact absurd (lt_of_dir found) (Nat.lt_irrefl _)

theorem fileInstance_spec :
    Quiet s (s.fileInstance i).2 ∧ (s.fileInstance i).1 = ⟨i, s.stored i⟩ := by
  refine ⟨Quiet.setInstance fun obj found => ?_, rfl⟩
  exact stored_of_dir found

theorem fileIdalloc_spec (sound : Sound s) :
    Quiet s (s.fileIdalloc w).2 ∧ ∀ id, (s.fileIdalloc w).1 = .ok id →
      Allocated s (s.fileIdalloc w).2 id ∧ id.inst = (s.fileIdalloc w).2.stored id.object := by
  have below : ∀ i ∈ List.range s.highestId, i < s.highestId := fun i => List.mem_range.mp
  obtain ⟨quiet, highest, found⟩ := findFree_spec (w := w) sound below
  unfold fileIdalloc
  generalize findFree w (List.range s.highestId) s = result at *
  obtain ⟨found?, s'⟩ := result
  cases found? with
  | some i =>
    obtain ⟨mem, null⟩ := found i rfl
    obtain ⟨quiet', read⟩ := fileInstance_spec (s := s') (i := i)
    refine ⟨quiet.trans quiet', ?_⟩
    intro id ok
    obtain rfl : (s'.fileInstance i).1 = id := by injection ok
    rw [read]
    refine ⟨⟨?_, null⟩, ?_⟩
    · exact Nat.lt_of_lt_of_le (below i mem) (quiet.trans quiet').highest
    · rfl
  | none =>
    simp only at highest quiet ⊢
    obtain ⟨quiet', generated⟩ := @fileGenerate_spec _ w 0 (quiet.sound sound)
    refine ⟨quiet.trans quiet', fun id ok => ?_⟩
    obtain ⟨rfl, more, stored⟩ := generated id ok
    refine ⟨⟨?_, ?_⟩, stored.symm⟩
    · rw [more]
      exact Nat.lt_succ_self _
    intro obj there
    rw [← quiet.dir] at there
    rw [dir_highestId] at there
    cases there

theorem fillGap_spec {n : ℕ} (sound : Sound s) :
    Quiet s (fillGap w n s).2 ∧ ((fillGap w n s).1 = .ok () →
      (fillGap w n s).2.highestId = s.highestId + n) := by
  induction n generalizing s with
  | zero => exact ⟨Quiet.refl s, fun _ => rfl⟩
  | succ n ih =>
    obtain ⟨quiet, generated⟩ := @fileGenerate_spec _ w 0 sound
    unfold fillGap
    generalize s.fileGenerate w 0 = result at *
    obtain ⟨r, s'⟩ := result
    cases r with
    | error status => exact ⟨quiet, fun ok => by cases ok⟩
    | ok id =>
      obtain ⟨rfl, more, -⟩ := generated _ rfl
      simp only at more quiet ⊢
      have quiet' : Quiet s' (s'.setInstance s.highestId niIndexNull) := by
        apply Quiet.setInstance
        intro obj found
        rw [quiet.dir, dir_highestId] at found
        cases found
      obtain ⟨quiet'', all⟩ := ih ((quiet.trans quiet').sound sound)
      refine ⟨(quiet.trans quiet').trans quiet'', fun ok => ?_⟩
      rw [all ok, highestId_setInstance, more]
      omega

theorem fileRegenerate_spec (sound : Sound s) :
    Quiet s (s.fileRegenerate w id).2 ∧ ((s.fileRegenerate w id).1 = .ok () →
      Allocated s (s.fileRegenerate w id).2 id) := by
  unfold fileRegenerate
  by_cases past : id.object ≥ s.highestId
  · rw [if_pos past]
    obtain ⟨quiet, all⟩ := @fillGap_spec _ w (id.object - s.highestId) sound
    generalize fillGap w (id.object - s.highestId) s = result at *
    obtain ⟨r, s'⟩ := result
    cases r with
    | error status => exact ⟨quiet, fun ok => by cases ok⟩
    | ok _ =>
      have reached : s'.highestId = id.object := by
        rw [all rfl]
        exact Nat.add_sub_cancel' past
      obtain ⟨quiet', generated⟩ :=
        @fileGenerate_spec s' w id.inst (quiet.sound sound)
      simp only at quiet ⊢
      generalize s'.fileGenerate w id.inst = result' at *
      obtain ⟨r', s''⟩ := result'
      cases r' with
      | error status => exact ⟨quiet.trans quiet', fun ok => by cases ok⟩
      | ok id' =>
        obtain ⟨-, more, -⟩ := generated id' rfl
        refine ⟨quiet.trans quiet', fun _ => ⟨?_, ?_⟩⟩
        · simp only at more ⊢
          rw [more, reached]
          exact Nat.lt_succ_self _
        · intro obj found
          exact absurd (lt_of_dir found) (Nat.not_lt_of_le past)
  · rw [if_neg past]
    have below : id.object < s.highestId := Nat.lt_of_not_le past
    obtain ⟨quiet, highest, free⟩ := idIsFree_spec (w := w) sound below
    generalize s.idIsFree w id.object = result at *
    obtain ⟨b, s'⟩ := result
    cases b with
    | false => exact ⟨quiet, fun ok => by cases ok⟩
    | true =>
      obtain ⟨quiet', -⟩ := fileInstance_spec (s := s') (i := id.object)
      refine ⟨quiet.trans quiet', fun _ => ⟨?_, free rfl⟩⟩
      exact Nat.lt_of_lt_of_le below (quiet.trans quiet').highest

theorem fileIdalloc_zeroed (sound : Sound s) : Zeroed s (s.fileIdalloc w).2 := by
  have below : ∀ i ∈ List.range s.highestId, i < s.highestId := fun i => List.mem_range.mp
  obtain ⟨-, highest, -⟩ := findFree_spec (w := w) sound below
  unfold fileIdalloc
  generalize findFree w (List.range s.highestId) s = result at *
  obtain ⟨found?, s'⟩ := result
  cases found? with
  | some i => exact Zeroed.of_highest highest
  | none =>
    intro j from_highest below
    simp only at highest
    rw [← highest] at from_highest
    exact fileGenerate_zeroed j from_highest below

/-- `obj_alloc` and `obj_regenerate`. -/
theorem objAlloc_spec (sound : Sound s) :
    Quiet s (s.objAlloc w id).2 ∧ ∀ id', (s.objAlloc w id).1 = .ok id' →
      Allocated s (s.objAlloc w id).2 id' ∧
        if id.object = niIndexNull then id'.inst = (s.objAlloc w id).2.stored id'.object
        else id' = ⟨id.object, unbump id.inst⟩ := by
  unfold objAlloc
  by_cases any : id.object = niIndexNull
  · rw [if_neg (not_not.mpr any)]
    simp only [if_pos any]
    exact fileIdalloc_spec sound
  rw [if_pos any]
  simp only [if_neg any]
  obtain ⟨quiet, allocated⟩ := @fileRegenerate_spec _ w ⟨id.object, unbump id.inst⟩ sound
  generalize s.fileRegenerate w ⟨id.object, unbump id.inst⟩ = result at *
  obtain ⟨r, s'⟩ := result
  cases r with
  | error status => exact ⟨quiet, fun id' ok => by cases ok⟩
  | ok _ =>
    refine ⟨quiet, fun id' ok => ?_⟩
    obtain rfl : (⟨id.object, unbump id.inst⟩ : Id) = id' := by injection ok
    exact ⟨allocated rfl, rfl⟩

end Allocation

/-! ## Writing -/

section Writing

variable {fails : Option Status}

/-- The object that `obj_commit` writes. -/
def Object.bumped (obj : Object) : Object := { obj with id := ⟨obj.id.object, bump obj.id.inst⟩ }

variable {record : Record} {n : ℕ}

/-- Putting another record in the place of an id that is not cached. -/
theorem Sound.put {found? : Option Object} (sound : Sound s) (uncached : s.cache i = none)
    (own : record.header.object = i ∨ ∃ obj, record = .decoded obj ∧ obj.id.object = dbFree)
    (dir : (s.setRecord i record).dir = update s.dir i found?)
    (right : ∀ obj, found? = some obj → n = obj.id.inst) :
    Sound ((s.setRecord i record).setInstance i n) := by
  refine ⟨sound.sized, sound.bounded, ?_, ?_, ?_⟩
  · intro j small
    rw [records_setInstance, records_setRecord]
    by_cases same : j = i
    · subst same
      rw [update_self]
      exact own
    · rw [update_of_ne same]
      exact sound.own j small
  · intro j obj' cached
    rw [cache_setInstance, cache_setRecord] at cached
    have other : j ≠ i := by
      rintro rfl
      rw [uncached] at cached
      cases cached
    rw [dir_setInstance, dir, update_of_ne other]
    exact sound.coherent j obj' cached
  · intro j obj' found
    rw [dir_setInstance, dir] at found
    rw [instances_setInstance]
    by_cases same : j = i
    · subst same
      rw [update_self] at found
      rw [update_self]
      exact .inl (right obj' found)
    · rw [update_of_ne same] at found
      rw [update_of_ne same]
      exact sound.known j obj' found

theorem sound_write (sound : Sound s) (below : i < s.highestId) (own : obj.id.object = i)
    (uncached : s.cache i = none) :
    Sound ((s.setRecord i (.decoded obj)).setInstance i obj.id.inst) := by
  refine sound.put uncached (.inl own) (dir_setRecord_own below own) ?_
  intro obj' same
  rw [some.inj same]

theorem sound_free (sound : Sound s) (below : i < s.highestId) (uncached : s.cache i = none) :
    Sound ((s.setRecord i (.decoded (freeObject n))).setInstance i niIndexNull) := by
  have small : i ≠ niIndexNull := sound.ne_null below
  refine sound.put uncached (.inr ⟨_, rfl, rfl⟩) (dir_setRecord_free small) ?_
  intro obj' same
  cases same

/-- Only the record and the instance of one id change. -/
structure Frame (s s' : Store) (i : ℕ) : Prop where
  highest : s'.highestId = s.highestId
  dir : ∀ j, j ≠ i → s'.dir j = s.dir j
  stored : ∀ j, j ≠ i → s'.stored j = s.stored j
  cache : s'.cache = s.cache

theorem frame_put :
    Frame s ((s.setRecord i record).setInstance i n) i where
  highest := rfl
  dir := by
    intro j other
    rw [dir_setInstance, dir_setRecord_ne other]
  stored := by
    intro j other
    rw [stored_setInstance, stored, records_setRecord, update_of_ne other]
    rfl
  cache := rfl

/-- `obj_commit` of an object of an id that is not cached: the object is there with the next
instance, or nothing has changed. -/
theorem objCommit_spec (sound : Sound s) (below : obj.id.object < s.highestId)
    (uncached : s.cache obj.id.object = none) :
    (s.objCommit fails obj).2.1 = obj.bumped ∧ Sound (s.objCommit fails obj).2.2 ∧
      Frame s (s.objCommit fails obj).2.2 obj.id.object ∧
      (s.objCommit fails obj).2.2.commits =
        update s.commits obj.id.object (s.commits obj.id.object + 1) ∧
      match (s.objCommit fails obj).1 with
      | .ok _ => fails = none ∧ (s.objCommit fails obj).2.2.dir obj.id.object = some obj.bumped
      | .error _ => fails ≠ none ∧ (s.objCommit fails obj).2.2.records = s.records := by
  unfold objCommit fileWrite
  have counted : Sound (s.count obj.id.object) :=
    ⟨sound.sized, sound.bounded, sound.own, sound.coherent, sound.known⟩
  cases fails with
  | some status =>
    refine ⟨rfl, counted, ⟨rfl, fun _ _ => rfl, fun _ _ => rfl, rfl⟩, rfl, ?_, rfl⟩
    exact some_ne_none _
  | none =>
    refine ⟨rfl, ?_, ?_, rfl, rfl, ?_⟩
    · exact sound_write counted below rfl uncached
    · have frame : Frame (s.count obj.id.object) (((s.count obj.id.object).setRecord obj.id.object
        (.decoded obj.bumped)).setInstance obj.id.object obj.bumped.id.inst) obj.id.object := frame_put
      exact ⟨frame.highest, frame.dir, frame.stored, frame.cache⟩
    have own : obj.bumped.id.object = obj.id.object := rfl
    have below' : obj.id.object < (s.count obj.id.object).highestId := below
    have dir := congrFun (dir_setRecord_own below' own) obj.id.object
    rw [update_self] at dir
    exact dir

theorem leaked_objCommit : (s.objCommit fails obj).2.2.leaked = s.leaked := by
  cases fails with
  | none => rfl
  | some status => rfl

/-- `obj_unalloc`: the id is free, or nothing has changed. -/
theorem objUnalloc_spec (sound : Sound s) (below : obj.id.object < s.highestId)
    (uncached : s.cache obj.id.object = none) :
    Sound (s.objUnalloc fails obj) ∧ Frame s (s.objUnalloc fails obj) obj.id.object ∧
      (s.objUnalloc fails obj).commits = s.commits ∧
      (fails = none → (s.objUnalloc fails obj).dir obj.id.object = none ∧
        (s.objUnalloc fails obj).stored obj.id.object = obj.id.inst) ∧
      (fails ≠ none → (s.objUnalloc fails obj).dir = s.dir ∧
        (s.objUnalloc fails obj).stored = s.stored ∧
        (s.objUnalloc fails obj).leaked = obj.id.object :: s.leaked) := by
  unfold objUnalloc fileIdunalloc
  cases fails with
  | some status =>
    refine ⟨?_, ⟨rfl, fun _ _ => rfl, fun _ _ => rfl, rfl⟩, rfl, fun free => ?_, fun _ => ?_⟩
    · exact ⟨sound.sized, sound.bounded, sound.own, sound.coherent, sound.known⟩
    · cases free
    · exact ⟨rfl, rfl, rfl⟩
  | none =>
    have small : obj.id.object ≠ niIndexNull :=
      sound.ne_null below
    refine ⟨sound_free sound below uncached, frame_put, rfl, fun _ => ⟨?_, ?_⟩, fun absent => ?_⟩
    · have dir := congrFun (@dir_setRecord_free s _ obj.id.inst small) obj.id.object
      rw [update_self] at dir
      exact dir
    · simp only [stored, records_setInstance, records_setRecord, update_self]
      rfl
    · exact absurd rfl absent

end Writing

/-! ## Requests -/

section Requests

variable {parent child : Object} {props : List Property} {place : ℕ} {user : Option Name}

/-- No directory and no instance has changed. -/
structure Same (s s' : Store) : Prop where
  highest : s.highestId ≤ s'.highestId
  dir : s'.dir = s.dir
  stored : ∀ i < s.highestId, s'.stored i = s.stored i

theorem Quiet.same (quiet : Quiet s s') : Same s s' := ⟨quiet.highest, quiet.dir, quiet.stored⟩

theorem Same.of_records {i : ℕ} (frame : Frame s s' i) (records : s'.records = s.records) :
    Same s s' where
  highest := Nat.le_of_eq frame.highest.symm
  dir := by
    funext j
    unfold Store.dir
    rw [frame.highest, records]
  stored := by
    intro j _
    rw [Store.stored, records]
    rfl

theorem Same.trans (first : Same s s') (second : Same s' s'') : Same s s'' where
  highest := Nat.le_trans first.highest second.highest
  dir := second.dir.trans first.dir
  stored := by
    intro i below
    rw [second.stored i (Nat.lt_of_lt_of_le below first.highest), first.stored i below]

theorem Sound.empty : Sound empty where
  sized := .inr rfl
  bounded := by decide
  own := fun i below => absurd below (Nat.not_lt_zero i)
  coherent := fun i obj cached => by cases cached
  known := fun i obj found => absurd (lt_of_dir found) (Nat.not_lt_zero i)

theorem idIsFree_again (free : (s.idIsFree w i).1 = true) : ((s.idIsFree w i).2.idIsFree w i).1 = true := by
  have null : (s.idIsFree w i).2.instances i = niIndexNull := by
    unfold idIsFree at free ⊢
    split at free
    case isTrue checked =>
      rw [if_pos checked]
      exact of_decide_eq_true free
    case isFalse unchecked =>
      rw [if_neg unchecked]
      exact of_decide_eq_true free
  have checked : niIndexNull ≠ niUnchecked := by decide
  generalize (s.idIsFree w i).2 = s' at *
  rw [idIsFree, null, if_pos checked]
  rfl

/-- The id of the root is 0. -/
theorem fileRootid_spec (sound : Sound s) :
    Quiet s (s.fileRootid w).2 ∧ (∀ id, (s.fileRootid w).1 = .ok id →
      id.object = 0 ∧ 0 < (s.fileRootid w).2.highestId) ∧
      ∀ status, (s.fileRootid w).1 = .error status → s.dir 0 = none := by
  obtain ⟨quiet, allocated⟩ := @fileIdalloc_spec s w sound
  unfold fileRootid
  by_cases some_record : 0 < s.highestId
  · rw [if_pos some_record]
    obtain ⟨quiet₁, highest₁, -⟩ := @idIsFree_spec s w 0 sound some_record
    have again := @idIsFree_again s w 0
    generalize s.idIsFree w 0 = checked at *
    obtain ⟨b, s₁⟩ := checked
    simp only at quiet₁ highest₁ again
    cases b with
    | false =>
      refine ⟨quiet₁, fun id ok => ?_, fun status failed => by cases failed⟩
      obtain rfl : (⟨0, s₁.instances 0⟩ : Id) = id := by injection ok
      refine ⟨rfl, ?_⟩
      dsimp only
      rw [highest₁]
      exact some_record
    | true =>
      have quiet₂ := (@fileIdalloc_spec s₁ w (quiet₁.sound sound)).1
      have free := again rfl
      obtain ⟨n, highest⟩ : ∃ n, s₁.highestId = n + 1 :=
        Nat.exists_eq_succ_of_ne_zero (by omega)
      -- the search begins with the id that has just been found to be free
      have first : (findFree w (List.range s₁.highestId) s₁).1 = some 0 := by
        rw [highest, List.range_succ_eq_map, findFree]
        generalize s₁.idIsFree w 0 = checked at *
        obtain ⟨b, s₂⟩ := checked
        obtain rfl : b = true := free
        rfl
      dsimp only
      unfold fileIdalloc at quiet₂ ⊢
      generalize findFree w (List.range s₁.highestId) s₁ = found at *
      obtain ⟨found?, s₂⟩ := found
      obtain rfl : found? = some 0 := first
      refine ⟨quiet₁.trans quiet₂, fun id ok => ⟨?_, ?_⟩, fun status failed => by cases failed⟩
      · obtain rfl : _ = id := by injection ok
        rfl
      · exact Nat.lt_of_lt_of_le (highest₁ ▸ some_record) quiet₂.highest
  · rw [if_neg some_record]
    have none_yet : s.highestId = 0 := Nat.eq_zero_of_not_pos some_record
    have generated : s.fileIdalloc w = s.fileGenerate w 0 := by
      rw [fileIdalloc, none_yet, List.range_zero]
      rfl
    refine ⟨quiet, fun id ok => ?_, fun _ _ => ?_⟩
    · have below := (allocated id ok).1.below
      rw [generated] at ok
      obtain ⟨rfl, -⟩ := (@fileGenerate_spec s w 0 sound).2 id ok
      exact ⟨none_yet, Nat.lt_of_le_of_lt (Nat.zero_le _) below⟩
    · rw [← none_yet]
      exact dir_highestId

theorem objLookupRoot_spec (sound : Sound s) :
    Sound (s.objLookupRoot w).2 ∧ (s.objLookupRoot w).2.dir = s.dir ∧
      s.leaked ⊆ (s.objLookupRoot w).2.leaked ∧
      ∀ status, (s.objLookupRoot w).1 = .error status → s.dir 0 = none := by
  obtain ⟨quiet₁, rooted₁, no_root₁⟩ := @fileRootid_spec s w sound
  unfold objLookupRoot
  generalize s.fileRootid w = rootid at *
  obtain ⟨r, s₁⟩ := rootid
  simp only at quiet₁ rooted₁ no_root₁
  cases r with
  | error status => 
    exact ⟨quiet₁.sound sound, quiet₁.dir, quiet₁.leaked, fun _ _ => no_root₁ status rfl⟩
  | ok id =>
    obtain ⟨root, -⟩ := rooted₁ id rfl
    obtain ⟨result, sound₂, records, highest, -, leaked⟩ :=
      @objLookupRead_spec s₁ id.object (quiet₁.sound sound)
    refine ⟨sound₂, (dir_congr records highest).trans quiet₁.dir,
      fun _ old => leaked (quiet₁.leaked old), fun status failed => ?_⟩
    dsimp only at failed
    rw [result, root, quiet₁.dir] at failed
    cases there : s.dir 0 with
    | none => rfl
    | some obj =>
      rw [there] at failed
      cases failed

/-- `ni_root` finds the root, or makes one. -/
theorem root_spec {again : Writes} (sound : Sound s) :
    Sound (s.root w again).2 ∧ s.leaked ⊆ (s.root w again).2.leaked ∧
      ((s.root w again).2.dir = s.dir ∨ s.dir 0 = none ∧ ∃ inst, (s.root w again).2.dir =
          update s.dir 0 (some (newRoot ⟨0, inst⟩))) := by
  obtain ⟨sound₂, dir₂, leaked₂, no_root⟩ := @objLookupRoot_spec s w sound
  unfold root
  generalize s.objLookupRoot w = found at *
  obtain ⟨r, s₂⟩ := found
  cases r with
  | ok obj => exact ⟨sound₂, leaked₂, .inl dir₂⟩
  | error status =>
    have no_root := no_root status rfl
    simp only at sound₂ dir₂ leaked₂ ⊢
    obtain ⟨quiet₃, rooted₃, -⟩ := @fileRootid_spec s₂ again sound₂
    generalize s₂.fileRootid again = rootid at *
    obtain ⟨r, s₃⟩ := rootid
    simp only at quiet₃ rooted₃
    have sound₃ := quiet₃.sound sound₂
    have dir₃ := quiet₃.dir.trans dir₂
    have leaked₃ : s.leaked ⊆ s₃.leaked := fun _ old => quiet₃.leaked (leaked₂ old)
    cases r with
    | error status => exact ⟨sound₃, leaked₃, .inl dir₃⟩
    | ok id =>
      obtain ⟨root, below⟩ := rooted₃ id rfl
      obtain ⟨i, inst⟩ := id
      obtain rfl : i = 0 := root
      have uncached : s₃.cache 0 = none := by
        cases cached : s₃.cache 0 with
        | none => rfl
        | some obj =>
          have there := sound₃.coherent _ _ cached
          rw [dir₃, no_root] at there
          cases there
      obtain ⟨bumped, sound₄, frame₄, -, result₄⟩ :=
        @objCommit_spec s₃ (newRoot ⟨0, inst⟩) again.self sound₃ below uncached
      have leaked₄ : s.leaked ⊆ (s₃.objCommit again.self (newRoot ⟨0, inst⟩)).2.2.leaked := by
        rw [leaked_objCommit]
        exact leaked₃
      dsimp only
      generalize s₃.objCommit again.self (newRoot ⟨0, inst⟩) = committed at *
      obtain ⟨r, obj, s₄⟩ := committed
      simp only at bumped sound₄ frame₄ result₄
      subst bumped
      cases r with
      | error status =>
        exact ⟨sound₄, leaked₄, .inl ((Same.of_records frame₄ result₄.2).dir.trans dir₃)⟩
      | ok _ =>
        refine ⟨sound₄, leaked₄, .inr ⟨no_root, bump inst, ?_⟩⟩
        funext j
        by_cases root : j = 0
        · subst root
          rw [update_self]
          exact result₄.2
        · rw [update_of_ne root]
          exact (frame₄.dir j root).trans (congrFun dir₃ j)

/-- What became of an id that was given up again: there is no directory, or `file_idunalloc`
failed. -/
inductive GivenUp (s' : Store) (w : Writes) (child : Object) (before : ℕ) : Prop
  | freed (free : s'.dir child.id.object = none)
      (stored : s'.stored child.id.object = child.id.inst ∨ s'.stored child.id.object = before)
  | orphan (failed : w.unalloc ≠ none) (kept : s'.dir child.id.object = some child)
      (leaked : child.id.object ∈ s'.leaked)

/-- The results of `ni_create` from the first commit on. -/
theorem createWith_spec (sound : Sound s) (there : s.dir parent.id.object = some parent)
    (parentUncached : s.cache parent.id.object = none) (below : id.object < s.highestId)
    (empty : s.dir id.object = none) :
    Sound (s.createWith w parent props id place).2 ∧
      (s.createWith w parent props id place).2.highestId = s.highestId ∧
      (∀ j, j ≠ id.object → j ≠ parent.id.object →
        (s.createWith w parent props id place).2.dir j = s.dir j ∧
          (s.createWith w parent props id place).2.stored j = s.stored j) ∧
      match (s.createWith w parent props id place).1 with
      | .ok reply =>
        reply = ⟨⟨parent.id.object, bump parent.id.inst⟩, ⟨id.object, bump id.inst⟩,
            [.newnode (newChild id parent props).bumped place]⟩ ∧
          (s.createWith w parent props id place).2.dir id.object =
            some (newChild id parent props).bumped ∧
          (s.createWith w parent props id place).2.dir parent.id.object =
            some (withChild parent id.object place).bumped
      | .error _ =>
        (s.createWith w parent props id place).2.dir parent.id.object = some parent ∧
          GivenUp (s.createWith w parent props id place).2 w
            (newChild id parent props).bumped (s.stored id.object) := by
  have other : parent.id.object ≠ id.object := by
    intro same
    rw [same, empty] at there
    cases there
  have uncached : s.cache id.object = none := by
    cases cached : s.cache id.object with
    | none => rfl
    | some obj =>
      rw [sound.coherent _ _ cached] at empty
      cases empty
  have childBelow : (newChild id parent props).id.object < s.highestId := below
  have childUncached : s.cache (newChild id parent props).id.object = none := uncached
  obtain ⟨bumped, sound₁, frame₁, -, result₁⟩ :=
    @objCommit_spec s _ w.child sound childBelow childUncached
  unfold createWith
  generalize s.objCommit w.child (newChild id parent props) = committed at *
  obtain ⟨r₁, child, s₁⟩ := committed
  obtain rfl : child = (newChild id parent props).bumped := bumped
  have frame₁' : Frame s s₁ id.object := frame₁
  have childBelow₁ : (newChild id parent props).bumped.id.object < s₁.highestId := by
    rw [frame₁'.highest]
    exact below
  have childUncached₁ : s₁.cache (newChild id parent props).bumped.id.object = none := by
    rw [frame₁'.cache]
    exact uncached
  have there₁ : s₁.dir parent.id.object = some parent := by
    rw [frame₁'.dir _ other]
    exact there
  cases r₁ with
  | error status =>
    obtain ⟨-, records⟩ := result₁
    obtain ⟨sound₂, frame₂, -, freed, kept⟩ :=
      @objUnalloc_spec s₁ _ w.unalloc sound₁ childBelow₁ childUncached₁
    have frame₂' : Frame s₁ _ id.object := frame₂
    refine ⟨sound₂, frame₂'.highest.trans frame₁'.highest, ?_, ?_, ?_⟩
    · intro j notChild _
      exact ⟨(frame₂'.dir j notChild).trans (frame₁'.dir j notChild),
        (frame₂'.stored j notChild).trans (frame₁'.stored j notChild)⟩
    · exact (frame₂'.dir _ other).trans there₁
    cases fails : w.unalloc with
    | none =>
      rw [fails] at freed
      exact .freed (freed rfl).1 (.inl (freed rfl).2)
    | some status =>
      rw [fails] at kept
      obtain ⟨dir₂, stored₂, -⟩ := kept (some_ne_none _)
      refine .freed ?_ (.inr ?_)
      · dsimp only
        rw [dir₂]
        change s₁.dir id.object = none
        rw [← empty]
        unfold dir
        rw [frame₁'.highest, records]
      · dsimp only
        rw [stored₂]
        change (s₁.records id.object).header.inst = (s.records id.object).header.inst
        rw [records]
  | ok _ =>
    obtain ⟨-, created⟩ := result₁
    have parentBelow : (withChild parent id.object place).id.object < s₁.highestId := by
      rw [frame₁'.highest]
      exact lt_of_dir there
    have parentUncached₁ : s₁.cache (withChild parent id.object place).id.object = none := by
      rw [frame₁'.cache]
      exact parentUncached
    obtain ⟨bumped₂, sound₂, frame₂, -, result₂⟩ :=
      @objCommit_spec s₁ _ w.self sound₁ parentBelow parentUncached₁
    have childId : (newChild id parent props).bumped.id.object = id.object := rfl
    simp only [childId]
    generalize s₁.objCommit w.self (withChild parent id.object place) = committed at *
    obtain ⟨r₂, parent', s₂⟩ := committed
    obtain rfl : parent' = (withChild parent id.object place).bumped := bumped₂
    have frame₂' : Frame s₁ s₂ parent.id.object := frame₂
    have created₂ : s₂.dir id.object = some (newChild id parent props).bumped :=
      (frame₂'.dir _ (Ne.symm other)).trans created
    cases r₂ with
    | error status =>
      obtain ⟨-, records⟩ := result₂
      have there₂ : s₂.dir parent.id.object = some parent := by
        rw [← there₁]
        unfold dir
        rw [frame₂'.highest, records]
      have childBelow₂ : (newChild id parent props).bumped.id.object < s₂.highestId := by
        rw [frame₂'.highest]
        exact childBelow₁
      have childUncached₂ : s₂.cache (newChild id parent props).bumped.id.object = none := by
        rw [frame₂'.cache]
        exact childUncached₁
      obtain ⟨sound₃, frame₃, -, freed, kept⟩ :=
        @objUnalloc_spec s₂ _ w.unalloc sound₂ childBelow₂ childUncached₂
      have frame₃' : Frame s₂ _ id.object := frame₃
      refine ⟨sound₃, frame₃'.highest.trans (frame₂'.highest.trans frame₁'.highest), ?_, ?_, ?_⟩
      · intro j notChild notParent
        exact ⟨(frame₃'.dir j notChild).trans ((frame₂'.dir j notParent).trans
            (frame₁'.dir j notChild)),
          (frame₃'.stored j notChild).trans ((frame₂'.stored j notParent).trans
            (frame₁'.stored j notChild))⟩
      · exact (frame₃'.dir _ other).trans there₂
      cases fails : w.unalloc with
      | none =>
        rw [fails] at freed
        exact .freed (freed rfl).1 (.inl (freed rfl).2)
      | some status =>
        rw [fails] at kept
        obtain ⟨dir₃, -, leaked₃⟩ := kept (some_ne_none _)
        refine .orphan (by rw [fails]; exact some_ne_none _) ?_ ?_
        · dsimp only
          rw [dir₃]
          exact created₂
        · dsimp only
          rw [leaked₃]
          exact List.mem_cons_self
    | ok _ =>
      obtain ⟨-, updated⟩ := result₂
      refine ⟨sound₂, frame₂'.highest.trans frame₁'.highest, ?_, rfl, created₂, updated⟩
      intro j notChild notParent
      exact ⟨(frame₂'.dir j notParent).trans (frame₁'.dir j notChild),
        (frame₂'.stored j notParent).trans (frame₁'.stored j notChild)⟩

/-- The results of `ni_destroy` from the tests on. -/
theorem destroyWith_spec {childId : Id} {child? : Option Object} (sound : Sound s)
    (there : s.dir parent.id.object = some parent)
    (parentUncached : s.cache parent.id.object = none)
    (lookup : s.dir childId.object = child?) (uncached : s.cache childId.object = none) :
    Sound (s.destroyWith w parent childId child?).2 ∧
      match (s.destroyWith w parent childId child?).1 with
      | .ok reply =>
        reply.self = ⟨parent.id.object, bump parent.id.inst⟩ ∧ childId.object ∈ parent.children ∧
          (s.destroyWith w parent childId child?).2.highestId = s.highestId ∧
          childId.object ≠ parent.id.object ∧
          (s.destroyWith w parent childId child?).2.dir parent.id.object =
            some (Object.bumped { parent with
              children := parent.children.erase childId.object }) ∧
          (∀ j, j ≠ parent.id.object → j ≠ childId.object →
            (s.destroyWith w parent childId child?).2.dir j = s.dir j ∧
              (s.destroyWith w parent childId child?).2.stored j = s.stored j) ∧
          (∀ child, child? = some child → child.children = []) ∧
          (s.destroyWith w parent childId child?).2.stored childId.object =
            s.stored childId.object ∧
          ((s.destroyWith w parent childId child?).2.dir childId.object = none ∨ w.unalloc ≠ none ∧
              (s.destroyWith w parent childId child?).2.dir childId.object = child? ∧
              childId.object ∈ (s.destroyWith w parent childId child?).2.leaked)
      | .error _ => Same s (s.destroyWith w parent childId child?).2 := by
  unfold destroyWith
  by_cases full : child?.any (·.children ≠ []) = true
  · rw [if_pos full]
    exact ⟨sound, (Quiet.refl s).same⟩
  rw [if_neg full]
  have leaf : ∀ child, child? = some child → child.children = [] := by
    rintro child rfl
    simpa using full
  by_cases related : childId.object ∈ parent.children
  case neg =>
    rw [if_pos (by simpa using related)]
    exact ⟨sound, (Quiet.refl s).same⟩
  rw [if_neg (by simpa using related)]
  have other : childId.object ≠ parent.id.object := by
    intro same
    rw [same, there] at lookup
    have none_left := leaf parent lookup.symm
    rw [none_left] at related
    cases related
  have parentBelow : ({ parent with children := parent.children.erase childId.object } :
      Object).id.object < s.highestId := lt_of_dir there
  obtain ⟨bumped, sound₁, frame₁, -, result₁⟩ :=
    @objCommit_spec s _ w.self sound parentBelow parentUncached
  generalize s.objCommit w.self { parent with
    children := parent.children.erase childId.object } = committed at *
  obtain ⟨r₁, parent', s₁⟩ := committed
  obtain rfl : parent' = _ := bumped
  have frame₁' : Frame s s₁ parent.id.object := frame₁
  cases r₁ with
  | error status =>
    obtain ⟨-, records⟩ := result₁
    exact ⟨sound₁, Same.of_records frame₁' records⟩
  | ok _ =>
    obtain ⟨-, updated⟩ := result₁
    cases child? with
    | none =>
      refine ⟨sound₁, rfl, related, frame₁'.highest, other, updated, ?_, leaf, ?_, .inl ?_⟩
      · exact fun j notParent _ => ⟨frame₁'.dir j notParent, frame₁'.stored j notParent⟩
      · exact frame₁'.stored _ other
      · exact (frame₁'.dir _ other).trans lookup
    | some child =>
      have own : child.id.object = childId.object := id_of_dir lookup
      have childBelow : child.id.object < s₁.highestId := by
        rw [frame₁'.highest, own]
        exact lt_of_dir lookup
      have childUncached : s₁.cache child.id.object = none := by
        rw [frame₁'.cache, own]
        exact uncached
      obtain ⟨sound₂, frame₂, -, freed, kept⟩ :=
        @objUnalloc_spec s₁ _ w.unalloc sound₁ childBelow childUncached
      rw [own] at frame₂ freed
      have before : s₁.stored childId.object = s.stored childId.object :=
        frame₁'.stored _ other
      refine ⟨sound₂, rfl, related, frame₂.highest.trans frame₁'.highest, other, ?_, ?_, leaf, ?_,
        ?_⟩
      · exact (frame₂.dir _ (Ne.symm other)).trans updated
      · exact fun j notParent notChild =>
          ⟨(frame₂.dir j notChild).trans (frame₁'.dir j notParent),
            (frame₂.stored j notChild).trans (frame₁'.stored j notParent)⟩
      · cases fails : w.unalloc with
        | none =>
          rw [fails] at freed
          exact (freed rfl).2.trans (stored_of_dir lookup).symm
        | some status =>
          rw [fails] at kept
          dsimp only
          rw [(kept (some_ne_none _)).2.1]
          exact before
      · cases fails : w.unalloc with
        | none =>
          rw [fails] at freed
          exact .inl (freed rfl).1
        | some status =>
          rw [fails] at kept
          obtain ⟨dir₂, -, leaked₂⟩ := kept (some_ne_none _)
          refine .inr ⟨some_ne_none _, ?_, ?_⟩
          · dsimp only
            rw [dir₂, frame₁'.dir _ other]
            exact lookup
          · dsimp only
            rw [leaked₂, own]
            exact List.mem_cons_self

/-- The results of the operations on properties. -/
theorem modify_spec {edit : Object → Except Status (List Property × (Object → List ImCall))}
    (sound : Sound s) :
    Sound (s.modify w id edit).2 ∧
      match (s.modify w id edit).1 with
      | .ok reply => ∃ obj props calls, s.dir id.object = some obj ∧ obj.id = id ∧
          edit obj = .ok (props, calls) ∧
          reply = ⟨⟨id.object, bump id.inst⟩, ⟨id.object, bump id.inst⟩,
            calls (Object.bumped { obj with props := props })⟩ ∧
          (s.modify w id edit).2.highestId = s.highestId ∧
          (∀ j, j ≠ id.object → (s.modify w id edit).2.dir j = s.dir j ∧
            (s.modify w id edit).2.stored j = s.stored j) ∧
          (s.modify w id edit).2.dir id.object = some (Object.bumped { obj with props := props })
      | .error _ => Same s (s.modify w id edit).2 := by
  obtain ⟨result, quiet, uncached, records, highest⟩ := @objLookupWrite_spec s id sound
  unfold Store.modify
  generalize s.objLookupWrite id = found at *
  obtain ⟨r, s₁⟩ := found
  simp only at result quiet uncached records highest
  have sound₁ := quiet.sound sound
  cases r with
  | error status => exact ⟨sound₁, quiet.same⟩
  | ok obj =>
    obtain ⟨there, rfl⟩ := lookupResult_eq_ok_iff.mp result.symm
    dsimp only
    cases edited : edit obj with
    | error status => exact ⟨sound₁, quiet.same⟩
    | ok change =>
      obtain ⟨props, calls⟩ := change
      have below : ({ obj with props := props } : Object).id.object < s₁.highestId := by
        rw [highest]
        exact lt_of_dir there
      obtain ⟨bumped, sound₂, frame₂, -, result₂⟩ :=
        @objCommit_spec s₁ _ w.self sound₁ below uncached
      dsimp only
      generalize s₁.objCommit w.self { obj with props := props } = committed at *
      obtain ⟨r₂, obj', s₂⟩ := committed
      obtain rfl : obj' = _ := bumped
      have frame₂' : Frame s₁ s₂ obj.id.object := frame₂
      cases r₂ with
      | error status =>
        exact ⟨sound₂, quiet.same.trans (Same.of_records frame₂' result₂.2)⟩
      | ok _ =>
        refine ⟨sound₂, obj, props, calls, there, rfl, edited, rfl, frame₂'.highest.trans highest,
          ?_, result₂.2⟩
        intro j other
        refine ⟨(frame₂'.dir j other).trans (congrFun quiet.dir j), ?_⟩
        rw [show _ = s₁.stored j from frame₂'.stored j other, stored, records]
        rfl

/-- `ni_create` fails without having done anything, or finds an id and goes on. -/
theorem create_cases {parentId childId : Id} (sound : Sound s) :
    (∃ status, (s.create user w parentId props childId place).1 = .error status ∧
      Quiet s (s.create user w parentId props childId place).2 ∧
      (childId.object = niIndexNull → Zeroed s (s.create user w parentId props childId place).2)) ∨
    ∃ parent id s₂, Quiet s s₂ ∧ (childId.object = niIndexNull → Zeroed s s₂) ∧
      s.dir parentId.object = some parent ∧ parent.id = parentId ∧
      validateDir user parent = true ∧ s₂.cache parentId.object = none ∧ Allocated s s₂ id ∧
      (if childId.object = niIndexNull then id.inst = s₂.stored id.object
        else id = ⟨childId.object, unbump childId.inst⟩) ∧
      (s.objLookupWrite parentId).2.objAlloc w childId = (.ok id, s₂) ∧
      s.create user w parentId props childId place = s₂.createWith w parent props id place := by
  obtain ⟨result, quiet₁, uncached, records, highest⟩ := @objLookupWrite_spec s parentId sound
  unfold create
  generalize s.objLookupWrite parentId = found at *
  obtain ⟨r, s₁⟩ := found
  simp only at result quiet₁ uncached records highest
  cases r with
  | error status => exact .inl ⟨status, rfl, quiet₁, fun _ => Zeroed.of_highest highest⟩
  | ok parent =>
    obtain ⟨there, own⟩ := lookupResult_eq_ok_iff.mp result.symm
    dsimp only
    by_cases allowed : validateDir user parent = true
    case neg =>
      rw [if_pos (by simpa using allowed)]
      exact .inl ⟨.perm, rfl, quiet₁, fun _ => Zeroed.of_highest highest⟩
    rw [if_neg (by simpa using allowed)]
    obtain ⟨quiet₂, allocated⟩ := @objAlloc_spec s₁ w childId (quiet₁.sound sound)
    have zeroed : childId.object = niIndexNull → Zeroed s (s₁.objAlloc w childId).2 := by
      intro any j from_highest below
      rw [← highest] at from_highest
      unfold objAlloc at below ⊢
      rw [if_neg (not_not.mpr any)] at below ⊢
      exact fileIdalloc_zeroed (quiet₁.sound sound) j from_highest below
    generalize s₁.objAlloc w childId = result₂ at *
    obtain ⟨r₂, s₂⟩ := result₂
    cases r₂ with
    | error status => exact .inl ⟨status, rfl, quiet₁.trans quiet₂, zeroed⟩
    | ok id =>
      obtain ⟨⟨below, empty⟩, from_where⟩ := allocated id rfl
      have uncached₂ : s₂.cache parentId.object = none := by
        cases cached : s₂.cache parentId.object with
        | none => rfl
        | some obj =>
          rw [quiet₂.cache _ _ cached] at uncached
          cases uncached
      refine .inr ⟨parent, id, s₂, quiet₁.trans quiet₂, zeroed, there, own, allowed, uncached₂,
        ⟨below, ?_⟩, from_where, rfl, rfl⟩
      rw [quiet₁.dir] at empty
      exact empty

/-- `ni_destroy` fails without having done anything, or has looked up both directories. -/
theorem destroy_cases {parentId childId : Id} (sound : Sound s) :
    (∃ status, (s.destroy user w parentId childId).1 = .error status ∧
      Quiet s (s.destroy user w parentId childId).2 ∧
      (s.destroy user w parentId childId).2.highestId = s.highestId) ∨
    ∃ parent s₂, Quiet s s₂ ∧ s.dir parentId.object = some parent ∧ parent.id = parentId ∧
      validateDir user parent = true ∧ s₂.highestId = s.highestId ∧
      s₂.cache parentId.object = none ∧ s₂.cache childId.object = none ∧
      (∀ child, s.dir childId.object = some child → child.id = childId) ∧
      s.destroy user w parentId childId =
        s₂.destroyWith w parent childId (s.dir childId.object) := by
  obtain ⟨result, quiet₁, uncached, -, highest₁⟩ := @objLookupWrite_spec s parentId sound
  unfold destroy
  generalize s.objLookupWrite parentId = found at *
  obtain ⟨r, s₁⟩ := found
  simp only at result quiet₁ uncached highest₁
  cases r with
  | error status => exact .inl ⟨status, rfl, quiet₁, highest₁⟩
  | ok parent =>
    obtain ⟨there, own⟩ := lookupResult_eq_ok_iff.mp result.symm
    dsimp only
    by_cases allowed : validateDir user parent = true
    case neg =>
      rw [if_pos (by simpa using allowed)]
      exact .inl ⟨.perm, rfl, quiet₁, highest₁⟩
    rw [if_neg (by simpa using allowed)]
    obtain ⟨result₂, quiet₂, uncached₂, -, highest₂⟩ :=
      @objLookupWrite_spec s₁ childId (quiet₁.sound sound)
    have parentUncached₂ : (s₁.objLookupWrite childId).2.cache parentId.object = none := by
      cases cached : (s₁.objLookupWrite childId).2.cache parentId.object with
      | none => rfl
      | some obj =>
        rw [quiet₂.cache _ _ cached] at uncached
        cases uncached
    unfold lookupChild
    generalize s₁.objLookupWrite childId = found₂ at *
    obtain ⟨r₂, s₂⟩ := found₂
    simp only at result₂ quiet₂ uncached₂ parentUncached₂ highest₂
    have quiet := quiet₁.trans quiet₂
    have highest := highest₂.trans highest₁
    rw [lookupResult, quiet₁.dir] at result₂
    cases looked : s.dir childId.object with
    | none =>
      simp only [looked] at result₂
      subst result₂
      refine .inr ⟨parent, s₂, quiet, there, own, allowed, highest, parentUncached₂,
        uncached₂, ?_, rfl⟩
      intro child found
      cases found
    | some child =>
      simp only [looked] at result₂
      by_cases current : child.id.inst = childId.inst
      · rw [if_pos current] at result₂
        subst result₂
        refine .inr ⟨parent, s₂, quiet, there, own, allowed, highest, parentUncached₂,
        uncached₂, ?_, rfl⟩
        intro child' found
        cases found
        exact Id.ext (id_of_dir looked) current
      · rw [if_neg current] at result₂
        subst result₂
        exact .inl ⟨.stale, rfl, quiet, highest⟩

variable {r : Request} {server : Server}

/-- A client that names a directory by an id that is not up to date is told so. -/
theorem perform_stale {status : Status} (sound : Sound s)
    (outdated : s.lookupResult r.self = .error status) :
    (s.perform user w r).1 = .error status ∧ Quiet s (s.perform user w r).2 := by
  obtain ⟨result, quiet, -⟩ := @objLookupWrite_spec s r.self sound
  rw [outdated] at result
  have modified : ∀ edit, (s.modify w r.self edit).1 = .error status ∧
      Quiet s (s.modify w r.self edit).2 := by
    intro edit
    unfold Store.modify
    generalize s.objLookupWrite r.self = found at *
    obtain ⟨r, s₁⟩ := found
    simp only at result quiet
    subst result
    exact ⟨rfl, quiet⟩
  cases r with
  | create id props place target =>
    simp only [Request.self] at result quiet
    simp only [perform, create]
    generalize s.objLookupWrite id = found at *
    obtain ⟨r, s₁⟩ := found
    simp only at result quiet
    subst result
    exact ⟨rfl, quiet⟩
  | destroy parentId selfId =>
    simp only [Request.self] at result quiet
    simp only [perform, destroy]
    generalize s.objLookupWrite parentId = found at *
    obtain ⟨r, s₁⟩ := found
    simp only at result quiet
    subst result
    exact ⟨rfl, quiet⟩
  | write id props => exact modified _
  | createprop id prop place => exact modified _
  | destroyprop id propIndex => exact modified _
  | renameprop id propIndex name => exact modified _
  | writeprop id propIndex values => exact modified _
  | createname id propIndex name place => exact modified _
  | destroyname id propIndex nameIndex => exact modified _
  | writename id propIndex nameIndex name => exact modified _

/-- The request works on the properties of one directory. -/
def Request.modifies : Request → Bool
  | .create _ _ _ _ => false
  | .destroy _ _ => false
  | _ => true

theorem checksum_of_modifies (modifies : r.modifies = true) (checksum : ℕ)
    (reply : Reply) : r.checksum checksum reply = checksumInc checksum reply.self := by
  cases r with
  | create id props place target => cases modifies
  | destroy parentId selfId => cases modifies
  | _ => rfl

/-- A request creates, destroys, or works on the properties of one directory. -/
theorem perform_eq_modify (s : Store) (user : Option Name) (w : Writes) (r : Request) :
    (∃ id props place target, r = .create id props place target) ∨
      (∃ parentId selfId, r = .destroy parentId selfId) ∨
      (∃ edit, s.perform user w r = s.modify w r.self edit) ∧ r.modifies = true := by
  cases r with
  | create id props place target => exact .inl ⟨id, props, place, target, rfl⟩
  | destroy parentId selfId => exact .inr (.inl ⟨parentId, selfId, rfl⟩)
  | write id props => exact .inr (.inr ⟨⟨_, rfl⟩, rfl⟩)
  | createprop id prop place => exact .inr (.inr ⟨⟨_, rfl⟩, rfl⟩)
  | destroyprop id propIndex => exact .inr (.inr ⟨⟨_, rfl⟩, rfl⟩)
  | renameprop id propIndex name => exact .inr (.inr ⟨⟨_, rfl⟩, rfl⟩)
  | writeprop id propIndex values => exact .inr (.inr ⟨⟨_, rfl⟩, rfl⟩)
  | createname id propIndex name place => exact .inr (.inr ⟨⟨_, rfl⟩, rfl⟩)
  | destroyname id propIndex nameIndex => exact .inr (.inr ⟨⟨_, rfl⟩, rfl⟩)
  | writename id propIndex nameIndex name => exact .inr (.inr ⟨⟨_, rfl⟩, rfl⟩)

theorem serve_fst :
    (server.serve (.ok user) w r).1 = (server.store.perform user w r).1 := by
  simp only [Server.serve]
  generalize server.store.perform user w r = answer
  obtain ⟨result, store⟩ := answer
  cases result with
  | error status => rfl
  | ok reply => rfl

theorem serve_store :
    (server.serve (.ok user) w r).2.store = (server.store.perform user w r).2 := by
  simp only [Server.serve]
  generalize server.store.perform user w r = answer
  obtain ⟨result, store⟩ := answer
  cases result with
  | error status => rfl
  | ok reply => rfl

end Requests

end Darwin.Netinfo
