import Darwin.Kern.Zalloc.State
import Darwin.Kern.Zalloc.Shape
import Darwin.Lib.Runs
import Mathlib.Algebra.Order.BigOperators.Group.Finset

/-!
# The invariant of the zone allocator

Every call keeps the free lists, the hints and the chains of the zones in order, and the account of
the memory: no byte is held twice, and none is lost where the free space takes all of a new region.

## Main results

* `Ok.next`: each call keeps the invariant.
-/

namespace Darwin.Kern.Zalloc

open List Option State
open Function (update update_of_ne update_self)
open Darwin.Lib

section Sums

variable {n i j : ℕ} {f g : ℕ → ℕ}

theorem sum_replace (inside : i < n) (same : ∀ j, j ≠ i → g j = f j) :
    ∑ j ∈ Finset.range n, g j + f i = ∑ j ∈ Finset.range n, f j + g i := by
  have member : i ∈ Finset.range n := Finset.mem_range.mpr inside
  rw [← Finset.add_sum_erase _ f member, ← Finset.add_sum_erase _ g member]
  have rest : ∑ j ∈ (Finset.range n).erase i, g j = ∑ j ∈ (Finset.range n).erase i, f j :=
    Finset.sum_congr rfl fun j inside => same j (Finset.ne_of_mem_erase inside)
  rw [rest]
  omega

theorem le_sum (inside : i < n) : f i ≤ ∑ j ∈ Finset.range n, f j := by
  rw [← Finset.add_sum_erase _ f (Finset.mem_range.mpr inside)]
  exact Nat.le_add_right _ _

theorem add_le_sum (inside : i < n) (inside' : j < n) (other : j ≠ i) :
    f i + f j ≤ ∑ j ∈ Finset.range n, f j := by
  rw [← Finset.add_sum_erase _ f (Finset.mem_range.mpr inside)]
  have member : j ∈ (Finset.range n).erase i :=
    Finset.mem_erase.mpr ⟨other, Finset.mem_range.mpr inside'⟩
  rw [← Finset.add_sum_erase _ f member]
  omega

end Sums

section Holdings

/-- The grain of a free space: entries start and end at multiples of it. -/
def State.grain (s : State) (f : ℕ) : ℕ := if f = 0 then 16 else (s.spaces f).allocUnit

/-- The lengths of the entries of a free space stay below this limit. -/
def limit (f : ℕ) : ℕ := if f = 0 then 2147483648 else 4294967296

/-- The ranges of the free elements of a zone. -/
def State.elements (s : State) (es : ℕ → List ℕ) (z : ℕ) : List Range :=
  elemRanges (grantSize (s.zones z).elemSize) (es z)

/-- How often an address is held: on the lists of the free spaces, on those of the zones, and in the
ranges that are handed out. -/
def State.held (p : Params) (s : State) (ls : ℕ → List Range) (es : ℕ → List ℕ) (x : ℕ) : ℕ :=
  ∑ f ∈ Finset.range p.spaceCount, cover (ls f) x +
    ∑ z ∈ Finset.range p.numZones, cover (s.elements es z) x + cover (s.out.map Prod.snd) x

def State.zdataRange (s : State) : Range := ⟨s.zdata, s.zdataSize⟩

/-- The heads of the lists of the free spaces and of the zones. -/
def State.IsHead (p : Params) (s : State) (h : ℕ) : Prop :=
  (∃ f < p.spaceCount, h = (s.spaces f).entries) ∨ ∃ z < p.numZones, h = (s.zones z).freeElements

/-- A request that a free space may be asked for: any size from the default space, and else a
positive multiple of the unit, up to the maximum. -/
def State.MayRequest (s : State) (f size : ℕ) : Prop :=
  if f = 0 then size < 4294967296
  else 0 < size ∧ (s.spaces f).allocUnit ∣ size ∧ size ≤ (s.spaces f).allocMax

/-- From the default space less than 2 GB is requested, also after the request is rounded up. -/
def SmallRequest (f size : ℕ) : Prop := f = 0 → size ≤ 2147483632

/-- A request that may be made and is small. -/
def State.ValidRequest (s : State) (f size : ℕ) : Prop :=
  if f = 0 then size ≤ 2147483632
  else 0 < size ∧ (s.spaces f).allocUnit ∣ size ∧ size ≤ (s.spaces f).allocMax

theorem State.MayRequest.valid {s : State} {f size : ℕ} (may : s.MayRequest f size)
    (small : SmallRequest f size) : s.ValidRequest f size := by
  unfold MayRequest at may
  unfold ValidRequest
  split_ifs at may ⊢ with default
  · exact small default
  · exact may

/-- What never changes: the measures of the free spaces and the zones, and where their heads are. -/
structure Geometry (p : Params) (s : State) : Prop where
  /-- The default space exists. -/
  spaces_pos : 0 < p.spaceCount
  page_dvd : p.page ∣ 2147483648
  shaped : ∀ f < p.spaceCount, Shaped (s.spaces f) f
  grain_dvd : ∀ f < p.spaceCount, s.grain f ∣ p.page
  zone : ∀ z < p.numZones, (s.zones z).freeSpace < p.spaceCount ∧
    s.MayRequest (s.zones z).freeSpace (s.zones z).elemSize
  spaceHeads : ∀ f < p.spaceCount, ∀ g < p.spaceCount,
    (s.spaces f).entries = (s.spaces g).entries → f = g
  zoneHeads : ∀ z < p.numZones, ∀ y < p.numZones,
    (s.zones z).freeElements = (s.zones y).freeElements → z = y
  bothHeads : ∀ f < p.spaceCount, ∀ z < p.numZones, (s.spaces f).entries ≠ (s.zones z).freeElements

/-- The account of the memory: what is held or was returned was obtained, and nothing is lost if the
account is exact. -/
structure Account (exact : Prop) (p : Params) (s : State) (ls : ℕ → List Range) (es : ℕ → List ℕ) :
    Prop where
  within : ∀ x, s.held p ls es x + cover s.returned x ≤ cover s.obtained x
  equal : exact → ∀ x, s.held p ls es x + cover s.returned x = cover s.obtained x
  owned : ∀ x, cover s.obtained x + cover [s.zdataRange] x ≤ cover s.returned x + 1
  heads : ∀ h, s.IsHead p h → cover s.obtained h + cover [s.zdataRange] h = 0

/-- The region from which the first regions are taken. -/
structure ZdataOk (p : Params) (s : State) : Prop where
  positive : 0 < s.zdata
  aligned : p.page ∣ s.zdata
  whole : p.page ∣ s.zdataSize
  below : s.zdata + s.zdataSize < 4294967296

/-- An element of a zone. -/
def State.ElementOk (s : State) (z : ℕ) (r : Range) : Prop :=
  r.size = grantSize (s.zones z).elemSize ∧ 0 < r.start ∧
    Entry (s.grain (s.zones z).freeSpace) (limit (s.zones z).freeSpace) r

/-- The invariant, with the entries of the free spaces and the free elements of the zones. -/
structure Ok (exact : Prop) (p : Params) (s : State) (ls : ℕ → List Range) (es : ℕ → List ℕ) :
    Prop where
  geometry : Geometry p s
  kept : ∀ f < p.spaceCount, Kept s.mem (s.spaces f) (s.grain f) (limit f) (ls f)
  zoneKept : ∀ z < p.numZones, ZoneKept s.mem (s.zones z) (es z)
  elements : ∀ z < p.numZones, ∀ r ∈ s.elements es z, s.ElementOk z r
  outElements : ∀ z r, (some z, r) ∈ s.out → z < p.numZones ∧ s.ElementOk z r
  account : Account exact p s ls es
  zdata : ZdataOk p s

variable {exact : Prop} {p : Params} {s s' : State} {ls : ℕ → List Range} {es : ℕ → List ℕ}
  {f z size x : ℕ}

/-- Nothing is held twice. -/
theorem Account.few (account : Account exact p s ls es) (x : ℕ) :
    s.held p ls es x + cover [s.zdataRange] x ≤ 1 := by
  have within := account.within x
  have owned := account.owned x
  omega

theorem Account.head (account : Account exact p s ls es) {h : ℕ} (head : s.IsHead p h) :
    s.held p ls es h = 0 := by
  have within := account.within h
  have heads := account.heads h head
  omega

theorem cover_le_held (s : State) (ls : ℕ → List Range) (es : ℕ → List ℕ)
    (inside : f < p.spaceCount) : cover (ls f) x ≤ s.held p ls es x := by
  have part := le_sum (f := fun f => cover (ls f) x) inside
  unfold held
  omega

theorem elements_le_held (s : State) (ls : ℕ → List Range) (es : ℕ → List ℕ)
    (inside : z < p.numZones) : cover (s.elements es z) x ≤ s.held p ls es x := by
  have part := le_sum (f := fun z => cover (s.elements es z) x) inside
  unfold held
  omega

theorem out_le_held (s : State) (ls : ℕ → List Range) (es : ℕ → List ℕ) :
    cover (s.out.map Prod.snd) x ≤ s.held p ls es x := by
  unfold held
  omega

theorem two_spaces_le_held (s : State) (ls : ℕ → List Range) (es : ℕ → List ℕ) (x : ℕ) {g : ℕ}
    (inside : f < p.spaceCount) (inside' : g < p.spaceCount) (other : g ≠ f) :
    cover (ls f) x + cover (ls g) x ≤ s.held p ls es x := by
  have part := add_le_sum (f := fun f => cover (ls f) x) inside inside' other
  unfold held
  omega

theorem space_zone_le_held (s : State) (ls : ℕ → List Range) (es : ℕ → List ℕ) (x : ℕ)
    (inside : f < p.spaceCount) (inside' : z < p.numZones) :
    cover (ls f) x + cover (s.elements es z) x ≤ s.held p ls es x := by
  have part := le_sum (f := fun f => cover (ls f) x) inside
  have part' := le_sum (f := fun z => cover (s.elements es z) x) inside'
  unfold held
  omega

theorem two_zones_le_held (s : State) (ls : ℕ → List Range) (es : ℕ → List ℕ) (x : ℕ) {y : ℕ}
    (inside : z < p.numZones) (inside' : y < p.numZones) (other : y ≠ z) :
    cover (s.elements es z) x + cover (s.elements es y) x ≤ s.held p ls es x := by
  have part := add_le_sum (f := fun z => cover (s.elements es z) x) inside inside' other
  unfold held
  omega

theorem grantSize_pos : 16 ≤ grantSize size := by
  unfold grantSize zoneMinAlloc
  split_ifs
  · omega
  · exact le_rfl

/-- A free space whose words and whose head are left alone stays in order. -/
theorem Ok.kept_of_untouched (ok : Ok exact p s ls es) {mem : Memory} (inside : f < p.spaceCount)
    (same : ∀ a, a = (s.spaces f).entries ∨ 0 < cover (ls f) a → mem a = s.mem a) :
    Kept mem (s.spaces f) (s.grain f) (limit f) (ls f) :=
  (ok.kept f inside).congr (same _ (.inl rfl)) fun a covered => same a (.inr covered)

/-- A zone whose elements and whose head are left alone stays in order. -/
theorem Ok.zoneKept_of_untouched (ok : Ok exact p s ls es) {mem : Memory} (inside : z < p.numZones)
    (same : ∀ a, a = (s.zones z).freeElements ∨ 0 < cover (s.elements es z) a → mem a = s.mem a) :
    ZoneKept mem (s.zones z) (es z) := by
  refine (ok.zoneKept z inside).congr (same _ (.inl rfl)) fun e member => ?_
  have positive : 0 < grantSize (s.zones z).elemSize := lt_of_lt_of_le (by omega) grantSize_pos
  exact same e (.inr (cover_elemRanges_pos member positive))

end Holdings

section Requests

variable {exact : Prop} {p : Params} {s s' s'' : State} {ls : ℕ → List Range} {es : ℕ → List ℕ}
  {f z size x : ℕ}

/-- What calls leave alone about the free spaces and the zones. -/
structure SameParts (s s' : State) : Prop where
  spaces : ∀ f, SameTable (s.spaces f) (s'.spaces f)
  zones : ∀ z, SameZone (s.zones z) (s'.zones z)

theorem SameParts.grain_eq (same : SameParts s s') (f : ℕ) : s'.grain f = s.grain f := by
  unfold grain
  rw [(same.spaces f).allocUnit]

theorem SameParts.isHead (same : SameParts s s') (h : ℕ) : s'.IsHead p h ↔ s.IsHead p h := by
  unfold IsHead
  simp only [(same.spaces _).entries, (same.zones _).freeElements]

theorem SameParts.mayRequest (same : SameParts s s') :
    s'.MayRequest f size ↔ s.MayRequest f size := by
  unfold MayRequest
  rw [(same.spaces f).allocUnit, (same.spaces f).allocMax]

theorem SameParts.elementOk (same : SameParts s s') (r : Range) :
    s'.ElementOk z r ↔ s.ElementOk z r := by
  unfold ElementOk
  rw [(same.zones z).elemSize, (same.zones z).freeSpace, same.grain_eq]

theorem SameParts.elements_eq (same : SameParts s s') (es : ℕ → List ℕ) (z : ℕ) :
    s'.elements es z = s.elements es z := by
  unfold elements
  rw [(same.zones z).elemSize]

theorem Geometry.same (geometry : Geometry p s) (same : SameParts s s') : Geometry p s' := by
  constructor
  case spaces_pos => exact geometry.spaces_pos
  case page_dvd => exact geometry.page_dvd
  case shaped =>
    intro f inside
    exact (same.spaces f).shaped (geometry.shaped f inside)
  case grain_dvd =>
    intro f inside
    rw [same.grain_eq]
    exact geometry.grain_dvd f inside
  case zone =>
    intro z inside
    rw [(same.zones z).freeSpace, (same.zones z).elemSize, same.mayRequest]
    exact geometry.zone z inside
  case spaceHeads =>
    intro f inside g inside' equal
    rw [(same.spaces f).entries, (same.spaces g).entries] at equal
    exact geometry.spaceHeads f inside g inside' equal
  case zoneHeads =>
    intro z inside y inside' equal
    rw [(same.zones z).freeElements, (same.zones y).freeElements] at equal
    exact geometry.zoneHeads z inside y inside' equal
  case bothHeads =>
    intro f inside z inside'
    rw [(same.spaces f).entries, (same.zones z).freeElements]
    exact geometry.bothHeads f inside z inside'

variable {mem : Memory} {ls' : ℕ → List Range} {es' : ℕ → List ℕ}

theorem sameParts_setSpace {space : FreeSpace}
    (same : SameTable (s.spaces f) space) : SameParts s (s.setSpace f mem space) where
  spaces g := by
    by_cases here : g = f
    · rw [here, setSpace]
      simpa using same
    · rw [setSpace]
      simp only [update_of_ne here]
      exact .refl
  zones z := .refl

theorem sameParts_setZone {zone : Zone} (same : SameZone (s.zones z) zone) :
    SameParts s (s.setZone z mem zone) where
  spaces f := .refl
  zones y := by
    by_cases here : y = z
    · rw [here, setZone]
      simpa using same
    · rw [setZone]
      simp only [update_of_ne here]
      exact .refl

theorem SameParts.trans (first : SameParts s s') (second : SameParts s' s'') : SameParts s s'' where
  spaces f := (first.spaces f).trans (second.spaces f)
  zones z := (first.zones z).trans (second.zones z)

theorem ZdataOk.congr (zdata : ZdataOk p s) (start : s'.zdata = s.zdata)
    (size : s'.zdataSize = s.zdataSize) : ZdataOk p s' := by
  obtain ⟨positive, aligned, whole, below⟩ := zdata
  rw [← start] at positive aligned below
  rw [← size] at whole below
  exact ⟨positive, aligned, whole, below⟩

/-- The account stays right if pages are given back that are no longer held. -/
theorem Account.change {pages : List Range}
    (account : Account exact p s ls es) (same : SameParts s s') (obtained : s'.obtained = s.obtained)
    (zdata : s'.zdataRange = s.zdataRange) (returned : s'.returned = pages ++ s.returned)
    (held : ∀ x, s'.held p ls' es' x + cover pages x = s.held p ls es x) :
    Account exact p s' ls' es' where
  within x := by
    rw [returned, obtained, cover_append, ← add_assoc, held]
    exact account.within x
  equal sharp x := by
    rw [returned, obtained, cover_append, ← add_assoc, held]
    exact account.equal sharp x
  owned x := by
    have before := account.owned x
    rw [obtained, zdata, returned, cover_append]
    omega
  heads h head := by
    rw [obtained, zdata]
    exact account.heads h ((same.isHead h).mp head)

/-- A change that leaves the parts alone. -/
theorem Ok.change (ok : Ok exact p s ls es)
    (same : SameParts s s')
    (kept : ∀ f < p.spaceCount, Kept s'.mem (s'.spaces f) (s.grain f) (limit f) (ls' f))
    (zoneKept : ∀ z < p.numZones, ZoneKept s'.mem (s'.zones z) (es' z))
    (elements : ∀ z < p.numZones, ∀ r ∈ s.elements es' z, s.ElementOk z r)
    (outElements : ∀ z r, (some z, r) ∈ s'.out → z < p.numZones ∧ s.ElementOk z r)
    (account : Account exact p s' ls' es') (zdata : ZdataOk p s') : Ok exact p s' ls' es' where
  geometry := ok.geometry.same same
  kept f inside := by
    rw [same.grain_eq]
    exact kept f inside
  zoneKept := zoneKept
  elements z inside r member := by
    rw [same.elements_eq] at member
    exact (same.elementOk r).mpr (elements z inside r member)
  outElements z r member := (outElements z r member).imp_right (same.elementOk r).mpr
  account := account
  zdata := zdata

/-- The indices of each free space measure the sizes of its entries. -/
theorem Geometry.measured (geometry : Geometry p s) (f : ℕ) (inside : f < p.spaceCount) :
    Measured (s.spaces f) (s.grain f) (limit f) := by
  have shaped := geometry.shaped f inside
  unfold grain limit
  by_cases default : f = 0
  · rw [default] at shaped
    rw [if_pos default, if_pos default, default]
    exact measured_default shaped
  rw [Shaped, if_neg default] at shaped
  obtain ⟨k, four, unit, shift, hints, positive, whole, -⟩ := shaped
  rw [if_neg default, if_neg default]
  exact measured_collectable four unit shift hints positive whole

theorem Geometry.page_pos (geometry : Geometry p s) : 0 < p.page ∧ p.page ≤ 2147483648 := by
  have divides := geometry.page_dvd
  refine ⟨?_, Nat.le_of_dvd (by omega) divides⟩
  apply pos_of_ne_zero
  intro zero
  rw [zero, Nat.zero_dvd] at divides
  omega

/-- A request that a free space can be asked for is rounded to a size that fits its entries, and a
whole number of pages for it fits as a region. -/
theorem Geometry.request (geometry : Geometry p s) (inside : f < p.spaceCount)
    (valid : s.ValidRequest f size) :
    roundRequest size = grantSize size ∧ Fits (s.grain f) (limit f) (grantSize size) ∧
      grantSize size ≤ roundPage p.page (grantSize size) ∧
      p.page ∣ roundPage p.page (grantSize size) ∧
      roundPage p.page (grantSize size) ≤ limit f := by
  obtain ⟨some_page, page_le⟩ := geometry.page_pos
  have upper : ∀ {n}, n + p.page ≤ 4294967296 →
      roundPage p.page n = (n + (p.page - 1)) / p.page * p.page := by
    intro n small
    rw [roundPage, Nat.mod_eq_of_lt (by omega)]
  unfold ValidRequest at valid
  by_cases default : f = 0
  · rw [if_pos default] at valid
    have rounded : roundRequest size = grantSize size := by
      unfold roundRequest grantSize zoneMinAlloc
      rw [Nat.mod_eq_of_lt (by omega)]
    have bound : 0 < grantSize size ∧ 16 ∣ grantSize size ∧ grantSize size ≤ 2147483632 := by
      unfold grantSize zoneMinAlloc
      split_ifs
      · refine ⟨?_, dvd_mul_left _ _, ?_⟩
        · omega
        · omega
      · omega
    have small : grantSize size + p.page ≤ 4294967296 := by omega
    obtain ⟨le, whole⟩ := roundPage_spec some_page small
    refine ⟨rounded, ⟨bound.1, ?_, ?_⟩, le, whole, ?_⟩
    · rw [grain, if_pos default]
      exact bound.2.1
    · rw [limit, if_pos default]
      omega
    rw [limit, if_pos default, upper small]
    obtain ⟨q, total⟩ := geometry.page_dvd
    have pages : (grantSize size + (p.page - 1)) / p.page ≤ q := by
      apply Nat.le_of_lt_succ
      rw [Nat.div_lt_iff_lt_mul some_page, Nat.succ_mul, mul_comm q]
      omega
    calc (grantSize size + (p.page - 1)) / p.page * p.page
        ≤ q * p.page := Nat.mul_le_mul_right _ pages
      _ = 2147483648 := by rw [mul_comm, total]
  · rw [if_neg default] at valid
    obtain ⟨positive, divides, le_max⟩ := valid
    have header := (geometry.measured f inside).header
    have max : (s.spaces f).allocMax < 2147483648 := by
      have shaped := geometry.shaped f inside
      rw [Shaped, if_neg default] at shaped
      obtain ⟨k, shaped⟩ := shaped
      exact shaped.2.2.2.2.2.2
    rw [grain, if_neg default] at header
    have sixteen : 16 ∣ size := dvd_trans header divides
    have grant : grantSize size = size := by
      unfold grantSize zoneMinAlloc
      split_ifs <;> omega
    have rounded : roundRequest size = size := by
      unfold roundRequest zoneMinAlloc
      split_ifs <;> omega
    rw [grant, rounded]
    have small : size + p.page ≤ 4294967296 := by omega
    obtain ⟨le, whole⟩ := roundPage_spec some_page small
    refine ⟨rfl, ⟨positive, ?_, ?_⟩, le, whole, ?_⟩
    · rw [grain, if_neg default]
      exact divides
    · rw [limit, if_neg default]
      omega
    · rw [limit, if_neg default, upper small]
      have floor := Nat.div_mul_le_self (size + (p.page - 1)) p.page
      omega

end Requests

section Getting

variable {exact : Prop} {p : Params} {s s' : State} {ls : ℕ → List Range} {es : ℕ → List ℕ}
  {f z size x result newSpace : ℕ} {mem : Memory} {space : FreeSpace} {l' : List Range}

/-- The other lists stay in order when a free space and some memory of nobody change. -/
theorem Ok.lists_of_frame (ok : Ok exact p s ls es) (extra : List Range) (inside : f < p.spaceCount)
    (frame : Frame s.mem mem (s.spaces f).entries (ls f ++ extra))
    (free : ∀ a, 0 < cover extra a → s.held p ls es a = 0 ∧ ¬ s.IsHead p a)
    (new : Kept mem space (s.grain f) (limit f) l') :
    (∀ g < p.spaceCount, Kept mem (update s.spaces f space g) (s.grain g) (limit g)
      (update ls f l' g)) ∧
    ∀ z < p.numZones, ZoneKept mem (s.zones z) (es z) := by
  have ownHead : s.IsHead p (s.spaces f).entries := .inl ⟨f, inside, rfl⟩
  have headFree := ok.account.head ownHead
  -- A word is left alone if it is not of this free space and somebody holds it or it is a head.
  have alone : ∀ a, a ≠ (s.spaces f).entries → cover (ls f) a = 0 →
      s.held p ls es a ≠ 0 ∨ s.IsHead p a → mem a = s.mem a := by
    intro a off own used
    apply frame a off
    rw [cover_append, own, zero_add]
    apply Nat.eq_zero_of_not_pos
    intro covered
    have ⟨nobody, noHead⟩ := free a covered
    exact used.elim (fun held => held nobody) fun head => noHead head
  constructor
  · intro g inside'
    by_cases here : g = f
    · rw [here, update_self, update_self]
      exact new
    rw [update_of_ne here, update_of_ne here]
    apply ok.kept_of_untouched inside'
    rintro a (rfl | covered)
    · have head : s.IsHead p (s.spaces g).entries := .inl ⟨g, inside', rfl⟩
      have nobody := ok.account.head head
      have part : cover (ls f) (s.spaces g).entries ≤ _ := cover_le_held s ls es inside
      refine alone _ (fun same => here (ok.geometry.spaceHeads g inside' f inside same)) ?_
        (.inr head)
      omega
    · have few := ok.account.few a
      have both := two_spaces_le_held s ls es a inside inside' here
      refine alone a ?_ (by omega) (.inl (by omega))
      rintro rfl
      omega
  · intro z inside'
    apply ok.zoneKept_of_untouched inside'
    rintro a (rfl | covered)
    · have head : s.IsHead p (s.zones z).freeElements := .inr ⟨z, inside', rfl⟩
      have nobody := ok.account.head head
      have part : cover (ls f) (s.zones z).freeElements ≤ _ :=
        cover_le_held s ls es inside
      refine alone _ (fun same => ok.geometry.bothHeads f inside z inside' same.symm) ?_ (.inr head)
      omega
    · have few := ok.account.few a
      have both := space_zone_le_held s ls es a inside inside'
      refine alone a ?_ (by omega) (.inl (by omega))
      rintro rfl
      omega

/-- What is held after the list of one free space and the ranges handed out have changed. -/
theorem held_update (s s' : State) (ls : ℕ → List Range) (es : ℕ → List ℕ) (l' : List Range)
    (inside : f < p.spaceCount) (zones : ∀ z, s'.elements es z = s.elements es z) (x : ℕ) :
    s'.held p (update ls f l') es x + cover (ls f) x + cover (s.out.map Prod.snd) x =
      s.held p ls es x + cover l' x + cover (s'.out.map Prod.snd) x := by
  have sum := sum_replace (f := fun g => cover (ls g) x)
    (g := fun g => cover (update ls f l' g) x) inside
    (fun g other => by simp only [update_of_ne other])
  simp only [update_self] at sum
  unfold held
  simp only [zones]
  omega

/-- The grant lies below the end of the address space. -/
theorem entry_of_within {grain limit start : ℕ} {l : List Range} {region : Range}
    (fit : Fits grain limit size) (aligned : grain ∣ start)
    (entries : ∀ r ∈ l, Entry grain limit r) (below : region.stop < 4294967296)
    (within : ∀ x, cover [⟨start, size⟩] x ≤ cover l x + cover [region] x) :
    Entry grain limit ⟨start, size⟩ := by
  refine ⟨fit, aligned, ?_⟩
  have positive := fit.1
  have last := within (start + size - 1)
  rw [cover_mk, if_pos (by omega)] at last
  rw [Range.stop_mk]
  by_cases inRegion : region.Has (start + size - 1)
  · have upper := inRegion.2
    omega
  rw [cover_single, if_neg inRegion, add_zero] at last
  obtain ⟨r, member, has⟩ := cover_pos_iff.mp last
  have entry := (entries r member).below
  have upper := has.2
  omega

variable {owner : Option ℕ}

/-- A range that a free space has given goes to its owner. -/
theorem Ok.granted (ok : Ok exact p s ls es) (inside : f < p.spaceCount) (same : SameParts s s')
    (kept : ∀ g < p.spaceCount, Kept s'.mem (s'.spaces g) (s.grain g) (limit g) (update ls f l' g))
    (zoneKept : ∀ z < p.numZones, ZoneKept s'.mem (s'.zones z) (es z)) (out : s'.out = s.out)
    (returned : s'.returned = s.returned) (zdata : ZdataOk p s') (some_result : 0 < result)
    (entry : Entry (s.grain f) (limit f) ⟨result, grantSize size⟩)
    (within : ∀ x, cover l' x + cover [⟨result, grantSize size⟩] x + cover s.obtained x ≤
      cover (ls f) x + cover s'.obtained x)
    (equal : exact → ∀ x, cover l' x + cover [⟨result, grantSize size⟩] x + cover s.obtained x =
      cover (ls f) x + cover s'.obtained x)
    (owned : ∀ x, cover s'.obtained x + cover [s'.zdataRange] x ≤ cover s'.returned x + 1)
    (heads : ∀ h, s.IsHead p h → cover s'.obtained h + cover [s'.zdataRange] h = 0) (own : ∀ z, owner = some z →
      z < p.numZones ∧ (s.zones z).freeSpace = f ∧ (s.zones z).elemSize = size) :
    Ok exact p (s'.handOut owner result (grantSize size)) (update ls f l') es := by
  rw [handOut, if_neg (by omega)]
  have same' : SameParts s { s' with out := (owner, ⟨result, grantSize size⟩) :: s'.out } :=
    ⟨same.spaces, same.zones⟩
  have held := fun x => held_update s
    { s' with out := (owner, ⟨result, grantSize size⟩) :: s'.out } ls es l' inside
    (same'.elements_eq es) x
  simp only [map_cons, out] at held
  have single : ∀ x, cover (⟨result, grantSize size⟩ :: s.out.map Prod.snd) x =
      cover [⟨result, grantSize size⟩] x + cover (s.out.map Prod.snd) x := fun x => cover_cons _ _ _
  simp only [single] at held
  refine ok.change same' kept zoneKept ok.elements ?_ ?_ (zdata.congr rfl rfl)
  · intro z r member
    rcases mem_cons.mp member with new | old
    · obtain ⟨owner_eq, rfl⟩ := Prod.mk.inj new
      have ⟨zone, space, elem⟩ := own z owner_eq.symm
      refine ⟨zone, by rw [elem], some_result, ?_⟩
      rw [space]
      exact entry
    · rw [out] at old
      exact ok.outElements z r old
  · constructor
    case within =>
      intro x
      have held := held x
      have before := ok.account.within x
      have change := within x
      simp only [returned, out] at *
      omega
    case equal =>
      intro sharp x
      have held := held x
      have before := ok.account.equal sharp x
      have change := equal sharp x
      simp only [returned, out] at *
      omega
    case owned => exact owned
    case heads =>
      intro h head
      exact heads h ((same'.isHead h).mp head)

/-- A region that `kmem_alloc_zone` may supply: pages that nobody owns. -/
structure State.Fresh (p : Params) (s : State) (region : Range) : Prop where
  positive : 0 < region.start
  aligned : p.page ∣ region.start
  below : region.stop < 4294967296
  unowned : ∀ x, region.Has x → cover s.obtained x ≤ cover s.returned x ∧ ¬ s.zdataRange.Has x
  heads : ∀ h, s.IsHead p h → ¬ region.Has h

/-- Where the region begins that `zget_space` adds. -/
def State.regionStart (s : State) (spaceToAdd newSpace : ℕ) : ℕ :=
  if s.zdataSize ≥ spaceToAdd then s.zdata + (s.zdataSize - spaceToAdd) else newSpace

/-- A request that no entry can serve loses nothing of the region that is added for it, if there is
one. -/
def State.LosslessGet (p : Params) (s : State) (f size newSpace : ℕ) : Prop :=
  ∀ l, Linked s.mem (s.spaces f).entries l → (∀ r ∈ l, r.size < size) →
    roundPage p.page size ≤ s.zdataSize ∨ newSpace ≠ 0 →
    Lossless l size (s.regionStart (roundPage p.page size) newSpace) (roundPage p.page size)

variable (ok : Ok exact p s ls es) (inside : f < p.spaceCount) (valid : s.ValidRequest f size)

include ok inside valid

/-- A region that is added to a free space: its memory is nobody's. -/
theorem Ok.addRegion (region : Range) (s₀ : State)
    (start : s₀ = { s with zdataSize := s₀.zdataSize }) (zdata : ZdataOk p s₀)
    (pages : region.size = roundPage p.page (grantSize size)) (positive : 0 < region.start)
    (aligned : p.page ∣ region.start) (below : region.stop < 4294967296)
    (unowned : ∀ x, region.Has x → cover s.obtained x ≤ cover s.returned x)
    (heads : ∀ h, s.IsHead p h → ¬ region.Has h)
    (part : ∀ x, cover [s₀.zdataRange] x + cover [region] x ≤ 1 ∧ cover [s₀.zdataRange] x ≤ cover [s.zdataRange] x)
    (small : ∀ r ∈ ls f, r.size < grantSize size)
    (lossless : exact → Lossless (ls f) (grantSize size) region.start region.size)
    (added : s₀.addRegion p f (grantSize size) region.start region.size = some (result, s'))
    (own : ∀ z, owner = some z → z < p.numZones ∧ (s.zones z).freeSpace = f ∧ (s.zones z).elemSize = size) :
    ∃ l', Ok exact p (s'.handOut owner result (grantSize size)) (update ls f l') es := by
  obtain ⟨start', size'⟩ := region
  have ⟨_, fit, grant_le, whole, region_le⟩ := ok.geometry.request inside valid
  have grain_dvd := ok.geometry.grain_dvd f inside
  have spaces : s₀.spaces = s.spaces := by rw [start]
  have mem_eq : s₀.mem = s.mem := by rw [start]
  have held_zero : ∀ x, 0 < cover [⟨start', size'⟩] x → s.held p ls es x = 0 ∧ ¬ s.IsHead p x := by
    intro x covered
    obtain ⟨r, member, has⟩ := cover_pos_iff.mp covered
    obtain rfl := mem_singleton.mp member
    have within := ok.account.within x
    have free := unowned x has
    exact ⟨by omega, fun head => heads x head has⟩
  have region : Region (s.spaces f).entries (ls f) (s.grain f) (limit f) ⟨start', size'⟩ := by
    constructor
    case positive => exact positive
    case aligned => exact dvd_trans grain_dvd aligned
    case whole =>
      rw [pages]
      exact dvd_trans grain_dvd whole
    case size_le =>
      rw [pages]
      exact region_le
    case below => exact below
    case apart =>
      intro r member
      have big := (ok.kept f inside).placed.big r member
      have some_size : 0 < size' := by
        have positive := fit.1
        simp only at pages
        omega
      apply Range.before_or_after (by omega) some_size
      rintro x ⟨here, there⟩
      have covered : 0 < cover (ls f) x := cover_pos_iff.mpr ⟨r, member, here⟩
      have nobody := (held_zero x (cover_pos_iff.mpr ⟨_, mem_singleton_self _, there⟩)).1
      have le : cover (ls f) x ≤ _ := cover_le_held s ls es inside
      omega
    case outside => exact heads _ (.inl ⟨f, inside, rfl⟩)
  rw [State.addRegion, spaces, mem_eq] at added
  dsimp only at added pages below positive aligned lossless
  split at added
  · cases added
  rename_i result' mem space run
  obtain ⟨rfl, rfl⟩ := Prod.mk.inj (some.inj added)
  have ⟨l', done⟩ := add_spec (ok.geometry.measured f inside) (ok.kept f inside) region fit small
    (by rw [pages]; exact grant_le) run
  have ⟨kept, zoneKept⟩ := ok.lists_of_frame _ inside done.frame held_zero done.kept
  have entry : Entry (s.grain f) (limit f) ⟨result', grantSize size⟩ :=
    entry_of_within fit done.aligned (ok.kept f inside).entry below fun x => by
      have within := done.within x
      omega
  have parts : SameParts s s₀ := by
    rw [start]
    exact ⟨fun f => .refl, fun z => .refl⟩
  have same : SameParts s { s₀.setSpace f mem space with
      obtained := ⟨start', size'⟩ :: s₀.obtained } := by
    have changed : SameParts s₀ (s₀.setSpace f mem space) :=
      sameParts_setSpace (by rw [spaces]; exact done.same)
    exact ⟨(parts.trans changed).spaces, (parts.trans changed).zones⟩
  have obtained : s₀.obtained = s.obtained := by rw [start]
  have returned : s₀.returned = s.returned := by rw [start]
  have zones : s₀.zones = s.zones := by rw [start]
  have total : ∀ x, cover (⟨start', size'⟩ :: s₀.obtained) x =
      cover [⟨start', size'⟩] x + cover s.obtained x := by
    intro x
    rw [obtained]
    exact cover_cons _ _ _
  refine ⟨l', ok.granted inside same ?_ ?_ ?_ ?_ (zdata.congr rfl rfl) done.positive
    entry ?_ ?_ ?_ ?_ own⟩
  · intro g inside'
    dsimp only [setSpace]
    rw [spaces]
    exact kept g inside'
  · intro z inside'
    dsimp only [setSpace]
    rw [zones]
    exact zoneKept z inside'
  · dsimp only [setSpace]
    rw [start]
  · exact returned
  · intro x
    have within := done.within x
    have total := total x
    dsimp only [setSpace]
    omega
  · intro sharp x
    have equal := done.exact (lossless sharp) x
    have total := total x
    dsimp only [setSpace]
    omega
  · intro x
    have owned := ok.account.owned x
    have total := total x
    have part := part x
    have zone : cover [zdataRange { s₀.setSpace f mem space with
        obtained := ⟨start', size'⟩ :: s₀.obtained }] x = cover [s₀.zdataRange] x := rfl
    dsimp only [setSpace] at zone ⊢
    rw [zone, returned]
    by_cases has : Range.Has ⟨start', size'⟩ x
    · have free := unowned x has
      omega
    · have none : cover [⟨start', size'⟩] x = 0 := by rw [cover_single, if_neg has]
      omega
  · intro h head
    have before := ok.account.heads h head
    have total := total h
    have part := part h
    have none : cover [⟨start', size'⟩] h = 0 := by
      rw [cover_single, if_neg (heads h head)]
    have zone : cover [zdataRange { s₀.setSpace f mem space with
        obtained := ⟨start', size'⟩ :: s₀.obtained }] h = cover [s₀.zdataRange] h := rfl
    dsimp only [setSpace] at zone ⊢
    rw [zone]
    omega

/-- `zget_space`: the owner gets what is free, or nothing happens. -/
theorem Ok.get (fresh : newSpace ≠ 0 → s.Fresh p ⟨newSpace, roundPage p.page (grantSize size)⟩)
    (lossless : exact → s.LosslessGet p f (grantSize size) newSpace)
    (run : s.zgetSpace p f size newSpace = some (result, s'))
    (own : ∀ z, owner = some z → z < p.numZones ∧ (s.zones z).freeSpace = f ∧ (s.zones z).elemSize = size) :
    ∃ ls', Ok exact p (s'.handOut owner result (grantSize size)) ls' es := by
  have ⟨rounded, fit, grant_le, whole, _⟩ := ok.geometry.request inside valid
  have kept := ok.kept f inside
  have measured := ok.geometry.measured f inside
  rw [zgetSpace, rounded, zgetRounded] at run
  split at run
  · cases run
  rename_i cur space found
  have lookup := lookup_spec measured.graded kept.hinted kept.placed kept.linked
    (fun r member => (kept.entry r member).fits) fit found
  split at run
  case isTrue some_entry =>
    -- An entry is large enough, and the grant is trimmed off it.
    obtain ⟨l₁, e, l₂, list, cur_eq, le, same, count, hinted⟩ :=
      lookup.resolve_left fun none => some_entry none.1
    generalize trimmed : trimEntry space s.mem cur (grantSize size) = pair at run
    obtain ⟨mem, space'⟩ := pair
    cases run
    rw [list] at kept
    rw [cur_eq] at trimmed
    have linked : Linked s.mem space.entries (l₁ ++ e :: l₂) := by
      rw [same.entries]
      exact kept.linked
    have placed : Placed space.entries (l₁ ++ e :: l₂) := by
      rw [same.entries]
      exact kept.placed
    have ⟨l', keptNew, sameNew, covers, frame⟩ := trim_spec (same.measured measured) linked placed
      kept.entry hinted (by rw [count, kept.count]) fit le trimmed
    rw [same.entries, ← list] at frame
    rw [← list] at covers
    have member : e ∈ ls f := by
      rw [list]
      exact mem_append_cons_self
    have entry := (ok.kept f inside).entry e member
    have noExtra : ls f ++ [] = ls f := append_nil _
    have ⟨keptAll, zoneKept⟩ := ok.lists_of_frame [] inside (by rw [noExtra]; exact frame)
      (fun a covered => absurd covered (lt_irrefl 0)) keptNew
    have positive := (ok.kept f inside).placed.positive e member
    have stop := entry.below
    refine ⟨_, ok.granted inside (sameParts_setSpace (same.trans sameNew)) keptAll zoneKept rfl rfl
      (ok.zdata.congr rfl rfl) ?_ ?_ ?_ ?_ ok.account.owned ok.account.heads own⟩
    · rw [cur_eq]
      exact positive
    · refine ⟨fit, ?_, ?_⟩
      · rw [cur_eq]
        exact entry.aligned
      · rw [cur_eq, Range.stop_mk]
        unfold Range.stop at stop
        omega
    · intro x
      have covers := covers x
      rw [cur_eq]
      dsimp only [setSpace]
      omega
    · intro _ x
      have covers := covers x
      rw [cur_eq]
      dsimp only [setSpace]
      omega
  case isFalse no_entry =>
    have small : ∀ r ∈ ls f, r.size < grantSize size := by
      rcases lookup with ⟨_, _, small⟩ | ⟨l₁, e, l₂, list, cur_eq, _⟩
      · exact small
      have positive := kept.placed.positive e (by
        rw [list]
        exact mem_append_cons_self)
      omega
    have lossless' := fun sharp => lossless sharp (ls f) kept.linked small
    dsimp only at run
    split at run
    case isTrue enough =>
      -- The region comes from the end of `zdata`.
      have start_eq : s.regionStart (roundPage p.page (grantSize size)) newSpace =
          s.zdata + (s.zdataSize - roundPage p.page (grantSize size)) := if_pos enough
      have lossless' := fun sharp => lossless' sharp (.inl enough)
      rw [start_eq] at lossless'
      have zdata := ok.zdata
      have below := zdata.below
      have positive := zdata.positive
      have inZdata : ∀ x, Range.Has ⟨s.zdata + (s.zdataSize - roundPage p.page (grantSize size)),
          roundPage p.page (grantSize size)⟩ x → s.zdataRange.Has x := by
        rintro x ⟨low, high⟩
        unfold zdataRange
        rw [Range.stop_mk] at high
        constructor
        · dsimp only at low ⊢
          omega
        · rw [Range.stop_mk]
          omega
      have ⟨l', done⟩ := ok.addRegion inside valid ⟨s.zdata +
          (s.zdataSize - roundPage p.page (grantSize size)), roundPage p.page (grantSize size)⟩
        { s with zdataSize := s.zdataSize - roundPage p.page (grantSize size) } rfl
        ⟨positive, zdata.aligned, Nat.dvd_sub zdata.whole whole, by dsimp only; omega⟩ rfl
        (by dsimp only; omega)
        (Nat.dvd_add zdata.aligned (Nat.dvd_sub zdata.whole whole))
        (by rw [Range.stop_mk]; omega)
        (by
          intro x has
          have owned := ok.account.owned x
          rw [cover_single, if_pos (inZdata x has)] at owned
          omega)
        (by
          intro h head has
          have nobody := ok.account.heads h head
          rw [cover_single, if_pos (inZdata h has)] at nobody
          omega)
        (by
          intro x
          unfold zdataRange
          rw [cover_mk, cover_mk, cover_mk]
          dsimp only
          constructor
          · split_ifs <;> omega
          · split_ifs <;> omega)
        small lossless' run own
      exact ⟨_, done⟩
    case isFalse short =>
      split at run
      case isTrue none =>
        cases run
        refine ⟨ls, ?_⟩
        rw [handOut, if_pos rfl]
        exact ok
      case isFalse supplied =>
        have fresh := fresh supplied
        have lossless' := fun sharp => lossless' sharp (.inr supplied)
        have start_eq : s.regionStart (roundPage p.page (grantSize size)) newSpace = newSpace :=
          if_neg short
        rw [start_eq] at lossless'
        have ⟨l', done⟩ := ok.addRegion inside valid
          ⟨newSpace, roundPage p.page (grantSize size)⟩ s rfl ok.zdata rfl
          fresh.positive fresh.aligned fresh.below (fun x has => (fresh.unowned x has).1)
          fresh.heads
          (by
            intro x
            refine ⟨?_, le_rfl⟩
            rw [cover_single, cover_single]
            by_cases has : Range.Has ⟨newSpace, roundPage p.page (grantSize size)⟩ x
            · rw [if_neg (fresh.unowned x has).2, if_pos has]
            · rw [if_neg has]
              split_ifs <;> omega)
          small lossless' run own
        exact ⟨_, done⟩

end Getting

section Zones

variable {exact : Prop} {p : Params} {s s' : State} {ls : ℕ → List Range} {es : ℕ → List ℕ}
  {f z size x e element newSpace : ℕ} {mem : Memory} {zone : Zone} {k : List ℕ} {extra : List Range}

/-- The other lists stay in order when a zone and some memory that is handed out change. -/
theorem Ok.lists_of_zone_frame (ok : Ok exact p s ls es) (inside : z < p.numZones)
    (frame : ∀ a, a ≠ (s.zones z).freeElements → cover (s.elements es z) a = 0 →
      cover extra a = 0 → mem a = s.mem a)
    (handed : ∀ a, cover extra a ≤ cover (s.out.map Prod.snd) a) :
    (∀ f < p.spaceCount, Kept mem (s.spaces f) (s.grain f) (limit f) (ls f)) ∧
    ∀ y < p.numZones, y ≠ z → ZoneKept mem (s.zones y) (es y) := by
  have ownHead : s.IsHead p (s.zones z).freeElements := .inr ⟨z, inside, rfl⟩
  have headFree := ok.account.head ownHead
  have atHead : ∀ a, s.IsHead p a → cover (s.elements es z) a = 0 ∧ cover extra a = 0 := by
    intro a head
    have nobody := ok.account.head head
    have part := elements_le_held s ls es inside (x := a)
    have part' := out_le_held s ls es (p := p) (x := a)
    have handed := handed a
    omega
  constructor
  · intro f inside'
    apply ok.kept_of_untouched inside'
    rintro a (rfl | covered)
    · have clear := atHead _ (.inl ⟨f, inside', rfl⟩)
      exact frame _ (ok.geometry.bothHeads f inside' z inside) clear.1 clear.2
    have few := ok.account.few a
    have both := space_zone_le_held s ls es a inside' inside
    have handed := handed a
    have total : cover (ls f) a + cover (s.out.map Prod.snd) a ≤ s.held p ls es a := by
      have part := le_sum (f := fun f => cover (ls f) a) inside'
      unfold held
      omega
    refine frame a ?_ (by omega) (by omega)
    rintro rfl
    omega
  · intro y inside' other
    apply ok.zoneKept_of_untouched inside'
    rintro a (rfl | covered)
    · have clear := atHead _ (.inr ⟨y, inside', rfl⟩)
      exact frame _ (fun same => other (ok.geometry.zoneHeads y inside' z inside same)) clear.1
        clear.2
    have few := ok.account.few a
    have both := two_zones_le_held s ls es a inside inside' other
    have handed := handed a
    have total : cover (s.elements es y) a + cover (s.out.map Prod.snd) a ≤
        s.held p ls es a := by
      have part := le_sum (f := fun z => cover (s.elements es z) a) inside'
      unfold held
      omega
    refine frame a ?_ (by omega) (by omega)
    rintro rfl
    omega

/-- What is held after the chain of one zone and the ranges handed out have changed. -/
theorem held_zone_update (s s' : State) (ls : ℕ → List Range) (es : ℕ → List ℕ) (k : List ℕ)
    (inside : z < p.numZones) (same : ∀ z, SameZone (s.zones z) (s'.zones z)) (x : ℕ) :
    s'.held p ls (update es z k) x + cover (s.elements es z) x + cover (s.out.map Prod.snd) x =
    s.held p ls es x + cover (elemRanges (grantSize (s.zones z).elemSize) k) x +
      cover (s'.out.map Prod.snd) x := by
  have sum := sum_replace (f := fun y => cover (s.elements es y) x)
    (g := fun y => cover (s'.elements (update es z k) y) x) inside
    (fun y other => by
      unfold elements
      rw [update_of_ne other, (same y).elemSize])
  have own : s'.elements (update es z k) z =
      elemRanges (grantSize (s.zones z).elemSize) k := by
    unfold elements
    rw [update_self, (same z).elemSize]
  simp only [own] at sum
  unfold held
  omega

variable (ok : Ok exact p s ls es)

include ok

/-- The chain of a zone changes together with what is handed out, and the sum stays the same. -/
theorem Ok.setChain (extra : List Range) (inside : z < p.numZones)
    (same : SameZone (s.zones z) zone) (kept : ZoneKept mem zone k)
    (frame : ∀ a, a ≠ (s.zones z).freeElements → cover (s.elements es z) a = 0 →
      cover extra a = 0 → mem a = s.mem a)
    (handed : ∀ a, cover extra a ≤ cover (s.out.map Prod.snd) a) {out : List (Option ℕ × Range)}
    (elements : ∀ r ∈ elemRanges (grantSize (s.zones z).elemSize) k, s.ElementOk z r)
    (outElements : ∀ y r, (some y, r) ∈ out → y < p.numZones ∧ s.ElementOk y r)
    (covers : ∀ x, cover (elemRanges (grantSize (s.zones z).elemSize) k) x +
      cover (out.map Prod.snd) x = cover (s.elements es z) x + cover (s.out.map Prod.snd) x) :
    Ok exact p { s.setZone z mem zone with out := out } ls (update es z k) := by
  have changed : SameParts s (s.setZone z mem zone) := sameParts_setZone same
  have parts : SameParts s { s.setZone z mem zone with out := out } :=
    ⟨changed.spaces, changed.zones⟩
  have ⟨spaces, zones⟩ := ok.lists_of_zone_frame inside frame handed
  have held : ∀ x, held p { s.setZone z mem zone with out := out } ls
      (update es z k) x = s.held p ls es x := by
    intro x
    have update : held p { s.setZone z mem zone with out := out } ls
        (update es z k) x + cover (s.elements es z) x + cover (s.out.map Prod.snd) x =
        s.held p ls es x + cover (elemRanges (grantSize (s.zones z).elemSize) k) x +
          cover (out.map Prod.snd) x :=
      held_zone_update s _ ls es k inside parts.zones x
    have covers := covers x
    omega
  refine ok.change parts spaces ?_ ?_ outElements
    (ok.account.change parts rfl rfl (nil_append _).symm held) (ok.zdata.congr rfl rfl)
  · intro y inside'
    dsimp only [setZone]
    by_cases here : y = z
    · rw [here, update_self, update_self]
      exact kept
    · rw [update_of_ne here, update_of_ne here]
      exact zones y inside' here
  · intro y inside' r member
    unfold State.elements at member
    by_cases here : y = z
    · subst here
      rw [update_self] at member
      exact elements r member
    · rw [update_of_ne here] at member
      exact ok.elements y inside' r member

/-- The counts of a zone do not matter. -/
theorem Ok.setCounts (inside : z < p.numZones)
    (same : SameZone (s.zones z) zone) (last : zone.lastInsert = (s.zones z).lastInsert) :
    Ok exact p (s.setZone z s.mem zone) ls es := by
  have kept := ok.zoneKept z inside
  have set := ok.setChain [] inside same
    ⟨same.freeElements ▸ kept.chained, kept.sorted, kept.positive, last ▸ kept.last,
      same.freeElements ▸ kept.head⟩ (fun _ _ _ _ => rfl) (fun _ => Nat.zero_le _)
    (ok.elements z inside) ok.outElements fun _ => rfl
  rwa [Function.update_eq_self] at set

/-- `zalloc` from the chain of a zone. -/
theorem Ok.take (inside : z < p.numZones)
    (removed : removeFromZone (s.zones z) s.mem = (e, mem, zone)) :
    (e = 0 ∧ mem = s.mem ∧ zone = s.zones z) ∨ (e ≠ 0 ∧ zone.elemSize = (s.zones z).elemSize ∧
      ∃ k, Ok exact p ((s.setZone z mem zone).handOut (some z) e (grantSize zone.elemSize)) ls
        (update es z k)) := by
  rcases removeFromZone_spec (ok.zoneKept z inside) with ⟨_, run⟩ |
    ⟨first, k, zone', list, some_first, same, run, kept⟩
  · left
    rw [run] at removed
    cases removed
    exact ⟨rfl, rfl, rfl⟩
  · right
    rw [run] at removed
    obtain ⟨rfl, pair⟩ := Prod.mk.inj removed
    obtain ⟨rfl, rfl⟩ := Prod.mk.inj pair
    refine ⟨some_first, same.elemSize, k, ?_⟩
    rw [handOut, if_neg some_first, same.elemSize]
    have own : s.elements es z = ⟨first, grantSize (s.zones z).elemSize⟩ ::
        elemRanges (grantSize (s.zones z).elemSize) k := by
      unfold State.elements
      rw [list]
      rfl
    have each := ok.elements z inside
    rw [own] at each
    refine ok.setChain [] inside same kept ?_ (fun a => Nat.zero_le _) ?_ ?_ ?_
    · intro a off _ _
      exact Memory.set_other off
    · exact fun r member => each r (mem_cons_of_mem _ member)
    · intro y r member
      rcases mem_cons.mp member with new | old
      · obtain ⟨owner, rfl⟩ := Prod.mk.inj new
        obtain rfl : y = z := some.inj owner
        exact ⟨inside, each _ mem_cons_self⟩
      · exact ok.outElements y r old
    · intro x
      rw [own, cover_cons, map_cons, cover_cons _ (List.map Prod.snd _)]
      dsimp only [setZone]
      omega

/-- `zfree`. -/
theorem Ok.free (handed : (some z, ⟨element, grantSize
    (s.zones z).elemSize⟩) ∈ s.out) (freed : s.zfree p z element = some s') :
    ∃ k, Ok exact p s' ls (update es z k) := by
  have ⟨inside, elementOk⟩ := ok.outElements z _ handed
  have positive : 0 < element := elementOk.2.1
  have some_size : 0 < grantSize (s.zones z).elemSize :=
    lt_of_lt_of_le (by omega) grantSize_pos
  have split : ∀ x, cover (s.out.map Prod.snd) x =
      cover [⟨element, grantSize (s.zones z).elemSize⟩] x +
        cover ((s.out.erase (some z, ⟨element, grantSize (s.zones z).elemSize⟩)).map Prod.snd)
          x := by
    intro x
    have perm := (perm_cons_erase handed).map Prod.snd
    rw [cover_perm perm, map_cons, cover_cons]
  have own : cover [⟨element, grantSize (s.zones z).elemSize⟩] element = 1 := by
    rw [cover_mk, if_pos (by omega)]
  have few := ok.account.few element
  have splitHere := split element
  have notHead : element ≠ (s.zones z).freeElements := by
    intro head
    have nobody := ok.account.head (.inr ⟨z, inside, head⟩)
    have part := out_le_held s ls es (p := p) (x := element)
    omega
  have new : element ∉ es z := by
    intro member
    have covered := cover_elemRanges_pos member some_size
    have total : cover (s.elements es z) element + cover (s.out.map Prod.snd) element ≤
        s.held p ls es element := by
      have part := le_sum (f := fun z => cover (s.elements es z) element) inside
      unfold held
      omega
    unfold State.elements at total
    omega
  rw [State.zfree] at freed
  split at freed
  · cases freed
  rename_i mem zone added
  cases freed
  obtain ⟨k₁, k₂, list, same, kept, frame⟩ :=
    addToZone_spec (ok.zoneKept z inside) positive new notHead added
  rw [same.elemSize]
  refine ⟨_, ok.setChain [⟨element, grantSize (s.zones z).elemSize⟩] inside same kept
    ?_ ?_ ?_ ?_ ?_⟩
  · intro a off out_list out_own
    apply frame a off
    · intro member
      have covered := cover_elemRanges_pos member some_size
      unfold State.elements at out_list
      omega
    · rintro rfl
      omega
  · intro a
    have split := split a
    omega
  · intro r member
    obtain ⟨e, inList, rfl⟩ := mem_map.mp member
    rcases mem_append.mp inList with front | back
    · apply ok.elements z inside
      rw [State.elements, list]
      exact mem_map_of_mem (mem_append_left _ front)
    rcases mem_cons.mp back with rfl | back
    · exact elementOk
    · apply ok.elements z inside
      rw [State.elements, list]
      exact mem_map_of_mem (mem_append_right _ back)
  · intro y r member
    exact ok.outElements y r (mem_of_mem_erase member)
  intro x
  have split := split x
  have chain : cover (elemRanges (grantSize (s.zones z).elemSize) (k₁ ++ element :: k₂)) x =
      cover [⟨element, grantSize (s.zones z).elemSize⟩] x + cover (s.elements es z) x := by
    unfold State.elements
    rw [list, cover_elemRanges_append, cover_elemRanges_append, cover_elemRanges_cons]
    omega
  omega

end Zones

section Steps

variable {exact : Prop} {p : Params} {s s' : State} {ls : ℕ → List Range} {es : ℕ → List ℕ}
  {f z size x address value : ℕ} {mem : Memory}

/-- The elements of a collectable free space are granted as they are. -/
theorem Geometry.grant_eq (geometry : Geometry p s) (inside : f < p.spaceCount)
    (collectable : f ≠ 0) (valid : s.MayRequest f size) : grantSize size = size := by
  rw [MayRequest, if_neg collectable] at valid
  have header := (geometry.measured f inside).header
  rw [grain, if_neg collectable] at header
  have sixteen : 16 ∣ size := dvd_trans header valid.2.1
  unfold grantSize zoneMinAlloc
  split_ifs <;> omega

variable (ok : Ok exact p s ls es)

include ok

/-- `zone_collect`: the elements of a zone become entries of its free space. -/
theorem Ok.collect (inside : z < p.numZones) (collected : s.zoneCollect p z = some s') :
    ∃ ls' es', Ok exact p s' ls' es' := by
  rw [zoneCollect] at collected
  split at collected
  · cases collected
    exact ⟨ls, es, ok⟩
  rename_i collectable
  split at collected
  · cases collected
  rename_i mem space zone run
  cases collected
  have ⟨inSpaces, valid⟩ := ok.geometry.zone z inside
  have grant := ok.geometry.grant_eq inSpaces collectable valid
  generalize space_eq : (s.zones z).freeSpace = f at *
  have wide : limit f = 4294967296 := if_neg collectable
  have zoneKept := ok.zoneKept z inside
  have elements : s.elements es z = elemRanges (s.zones z).elemSize (es z) := by
    rw [State.elements, grant]
  have entry : ∀ e ∈ es z, 0 < e ∧ Entry (s.grain f) (limit f) ⟨e, (s.zones z).elemSize⟩ := by
    intro e member
    have each := ok.elements z inside ⟨e, (s.zones z).elemSize⟩ (by
      rw [elements]
      exact mem_map_of_mem member)
    have own := each.2.2
    rw [space_eq] at own
    exact ⟨each.2.1, own⟩
  have spaceHead := ok.account.head (.inl ⟨f, inSpaces, rfl⟩)
  have zoneHead := ok.account.head (.inr ⟨z, inside, rfl⟩)
  have both := fun x => space_zone_le_held s ls es x inSpaces inside
  have atSpace := both (s.spaces f).entries
  have atZone := both (s.zones z).freeElements
  rw [elements] at atSpace atZone
  have ⟨l, kept, sameSpace, sameZone, emptied, covers, frame⟩ :=
    @zoneCollect_spec _ _ _ _ _ _ _ _ _ _ _ [] (ls f) (ok.geometry.measured f inSpaces) wide
      (ok.kept f inSpaces) zoneKept.chained zoneKept.sorted entry
      (by
        intro x
        have few := ok.account.few x
        have both := both x
        rw [elements] at both
        rw [nil_append]
        omega)
      (by omega)
      (by
        rw [nil_append]
        exact ⟨by omega, by omega, fun same => ok.geometry.bothHeads f inSpaces z inside same.symm⟩)
      (forall_mem_nil _) run
  rw [nil_append] at covers frame
  rw [← elements] at covers frame
  -- A word is left alone if somebody else holds it or it is the head of another list.
  have alone : ∀ a, a ≠ (s.spaces f).entries → a ≠ (s.zones z).freeElements →
      cover (ls f) a + cover (s.elements es z) a = 0 → mem a = s.mem a := by
    intro a off off' none
    exact frame a off off' (by omega) (by omega)
  have spaceParts : SameParts s (s.setSpace f mem space) := sameParts_setSpace sameSpace
  have zoneParts : SameParts (s.setSpace f mem space)
      ((s.setSpace f mem space).setZone z mem zone) := sameParts_setZone sameZone
  have parts := spaceParts.trans zoneParts
  have held : ∀ x, held p ((s.setSpace f mem space).setZone z mem zone)
      (update ls f l) (update es z []) x = s.held p ls es x := by
    intro x
    have first : held p (s.setSpace f mem space) (update ls f l) es x +
        cover (ls f) x + cover (s.out.map Prod.snd) x =
        s.held p ls es x + cover l x + cover (s.out.map Prod.snd) x :=
      held_update s _ ls es l inSpaces (spaceParts.elements_eq es) x
    have second : held p ((s.setSpace f mem space).setZone z mem zone)
        (update ls f l) (update es z []) x + cover (s.elements es z) x +
        cover (s.out.map Prod.snd) x =
        held p (s.setSpace f mem space) (update ls f l) es x + 0 +
        cover (s.out.map Prod.snd) x :=
      held_zone_update (s.setSpace f mem space) _ (update ls f l) es [] inside zoneParts.zones x
    have covers := covers x
    omega
  refine ⟨update ls f l, update es z [], ok.change parts ?_ ?_ ?_ ok.outElements
    (ok.account.change parts rfl rfl (nil_append _).symm held) (ok.zdata.congr rfl rfl)⟩
  · intro g inside'
    dsimp only [setSpace, setZone]
    by_cases here : g = f
    · rw [here, update_self, update_self]
      exact kept
    rw [update_of_ne here, update_of_ne here]
    apply ok.kept_of_untouched inside'
    rintro a (rfl | covered)
    · have nobody := ok.account.head (.inl ⟨g, inside', rfl⟩)
      have both := both (s.spaces g).entries
      exact alone _ (fun same => here (ok.geometry.spaceHeads g inside' f inSpaces same))
        (ok.geometry.bothHeads g inside' z inside) (by omega)
    · have few := ok.account.few a
      have pair := two_spaces_le_held s ls es a inSpaces inside' here
      have pair' := space_zone_le_held s ls es a inside' inside
      refine alone a ?_ ?_ (by omega)
      · rintro rfl
        omega
      · rintro rfl
        omega
  · intro y inside'
    dsimp only [setSpace, setZone]
    by_cases here : y = z
    · rw [here, update_self, update_self]
      exact emptied
    rw [update_of_ne here, update_of_ne here]
    apply ok.zoneKept_of_untouched inside'
    rintro a (rfl | covered)
    · have nobody := ok.account.head (.inr ⟨y, inside', rfl⟩)
      have both := both (s.zones y).freeElements
      exact alone _ (fun same => ok.geometry.bothHeads f inSpaces y inside' same.symm)
        (fun same => here (ok.geometry.zoneHeads y inside' z inside same)) (by omega)
    · have few := ok.account.few a
      have pair := two_zones_le_held s ls es a inside inside' here
      have pair' := space_zone_le_held s ls es a inSpaces inside'
      refine alone a ?_ ?_ (by omega)
      · rintro rfl
        omega
      · rintro rfl
        omega
  · intro y inside' r member
    unfold State.elements at member
    by_cases here : y = z
    · subst here
      rw [update_self] at member
      cases member
    · rw [update_of_ne here] at member
      exact ok.elements y inside' r member

/-- A free space gives pages back to the system. -/
theorem Ok.reclaimSpace (inside : f < p.spaceCount) {space : FreeSpace} {pages : List Range}
    (run : reclaimEntries p.page p.zoneMin p.zoneMax p.turns p.turns (s.spaces f) s.mem (s.spaces f).entries [] = some (mem, space, pages)) :
    ∃ l', Ok exact p { s.setSpace f mem space with returned := pages ++ s.returned }
      (update ls f l') es := by
  have ⟨some_page, _⟩ := ok.geometry.page_pos
  have ⟨gone, l', list, done⟩ := @reclaim_spec _ _ _ _ _ _ _ _ _ _ _ [] _ [] (ls f)
    (ok.geometry.measured f inside) (ok.geometry.grain_dvd f inside) some_page
    (ok.kept f inside) run
  obtain rfl : pages = gone := by rw [list, append_nil]
  have frame : Frame s.mem mem (s.spaces f).entries (ls f ++ []) := by
    rw [append_nil]
    exact done.frame
  have ⟨keptAll, zoneKept⟩ := ok.lists_of_frame [] inside frame
    (fun a covered => absurd covered (lt_irrefl 0)) done.kept
  have changed : SameParts s (s.setSpace f mem space) := sameParts_setSpace done.same
  have parts : SameParts s { s.setSpace f mem space with returned := pages ++ s.returned } :=
    ⟨changed.spaces, changed.zones⟩
  have covers := done.covers
  have held : ∀ x, held p { s.setSpace f mem space with returned := pages ++ s.returned }
      (update ls f l') es x + cover pages x = s.held p ls es x := by
    intro x
    have update : held p { s.setSpace f mem space with returned := pages ++ s.returned }
        (update ls f l') es x + cover (ls f) x + cover (s.out.map Prod.snd) x =
        s.held p ls es x + cover l' x + cover (s.out.map Prod.snd) x :=
      held_update s _ ls es l' inside (parts.elements_eq es) x
    have covers := covers x
    rw [nil_append] at covers
    omega
  exact ⟨l', ok.change parts keptAll zoneKept ok.elements ok.outElements
    (ok.account.change parts rfl rfl rfl held) (ok.zdata.congr rfl rfl)⟩

/-- `zone_free_space_reclaim`. -/
theorem Ok.reclaimSpaces {count : ℕ} (inside : f + count ≤ p.spaceCount)
    (run : s.reclaimSpaces p count f = some s') : ∃ ls', Ok exact p s' ls' es := by
  induction count generalizing s f ls with
  | zero =>
    cases run
    exact ⟨ls, ok⟩
  | succ count ih =>
    rw [reclaimSpaces] at run
    split at run
    · cases run
    rename_i mem space pages first
    have ⟨l', ok'⟩ := ok.reclaimSpace (by omega) first
    exact ih ok' (by omega) run

/-- The owner of a range writes to it. -/
theorem Ok.write (owned : 0 < cover (s.out.map Prod.snd) address) :
    Ok exact p { s with mem := s.mem.set address value } ls es := by
  have few := ok.account.few address
  have notHead : ¬ s.IsHead p address := by
    intro head
    have nobody := ok.account.head head
    have part := out_le_held s ls es (p := p) (x := address)
    omega
  have parts : SameParts s { s with mem := s.mem.set address value } :=
    ⟨fun f => .refl, fun z => .refl⟩
  refine ok.change parts ?_ ?_ ok.elements ok.outElements
    ⟨ok.account.within, ok.account.equal, ok.account.owned, ok.account.heads⟩
    (ok.zdata.congr rfl rfl)
  · intro f inside
    refine ok.kept_of_untouched inside fun a used => Memory.set_other ?_
    rintro rfl
    rcases used with head | covered
    · exact notHead (.inl ⟨f, inside, head⟩)
    · have part := le_sum (f := fun f => cover (ls f) a) inside
      unfold held at few
      omega
  · intro z inside
    refine ok.zoneKept_of_untouched inside fun a used => Memory.set_other ?_
    rintro rfl
    rcases used with head | covered
    · exact notHead (.inr ⟨z, inside, head⟩)
    · have part := le_sum (f := fun z => cover (s.elements es z) a) inside
      unfold held at few
      omega

omit ok

/-- What the callers and the system are bound to: a free space is asked for what it may be asked
for, an element is freed that its zone has handed out, and the memory that is supplied is fresh. -/
def State.Allowed (p : Params) (s : State) : Action → Prop
  | .zgetSpace f size newSpace =>
    f < p.spaceCount ∧ s.MayRequest f size ∧
      (newSpace ≠ 0 → s.Fresh p ⟨newSpace, roundPage p.page (roundRequest size)⟩)
  | .zalloc z newSpace =>
    z < p.numZones ∧ (newSpace ≠ 0 →
      s.Fresh p ⟨newSpace, roundPage p.page (roundRequest (s.zones z).elemSize)⟩)
  | .zfree z element => (some z, ⟨element, grantSize (s.zones z).elemSize⟩) ∈ s.out
  | .zoneCollect z => z < p.numZones
  | .reclaim => True
  | .write _ _ => True

/-- `zalloc` asks the free space of the zone for an element: the zone has none, and it is not full
or may have more. -/
def State.Asks (p : Params) (s : State) (z : ℕ) : Prop :=
  s.mem (s.zones z).freeElements = 0 ∧ ((s.zones z).full → (s.zones z).exhaustible = false ∧
    ((s.zones z).expandable ∨ p.zoneIgnoreOverflow))

/-- The size is small if the call asks a free space for memory. -/
def State.SmallCall (p : Params) (s : State) : Action → Prop
  | .zgetSpace f size _ => SmallRequest f size
  | .zalloc z _ => s.Asks p z → SmallRequest (s.zones z).freeSpace (s.zones z).elemSize
  | _ => True

/-- The request that a call makes, if it makes one, loses nothing of the region that is added. -/
def State.LosslessCall (p : Params) (s : State) : Action → Prop
  | .zgetSpace f size newSpace => s.LosslessGet p f (grantSize size) newSpace
  | .zalloc z newSpace =>
    s.Asks p z → s.LosslessGet p (s.zones z).freeSpace (grantSize (s.zones z).elemSize) newSpace
  | _ => True

theorem addRegion_zones {newSpace spaceToAdd result : ℕ}
    (run : s.addRegion p f size newSpace spaceToAdd = some (result, s')) : s'.zones = s.zones := by
  rw [addRegion] at run
  split at run
  · cases run
  · obtain ⟨-, rfl⟩ := Prod.mk.inj (some.inj run)
    rfl

/-- `zget_space` does not look at the zones. -/
theorem zgetSpace_zones {newSpace result : ℕ}
    (run : s.zgetSpace p f size newSpace = some (result, s')) : s'.zones = s.zones := by
  rw [zgetSpace] at run
  generalize roundRequest size = rounded at run
  rw [zgetRounded] at run
  split at run
  · cases run
  rename_i cur space found
  split at run
  · generalize trimEntry space s.mem cur rounded = trimmed at run
    obtain ⟨mem, space'⟩ := trimmed
    obtain ⟨-, rfl⟩ := Prod.mk.inj (some.inj run)
    rfl
  generalize roundPage p.page rounded = spaceToAdd at run
  dsimp only at run
  split at run
  · have same := addRegion_zones run
    rw [same]
  split at run
  · obtain ⟨-, rfl⟩ := Prod.mk.inj (some.inj run)
    rfl
  · have same := addRegion_zones run
    rw [same]

/-- The counts of a zone and its limit do not matter to its chain. -/
theorem sameZone_grow (zone : Zone) (addr : ℕ) :
    SameZone zone (zone.grow.countElement addr) ∧
      (zone.grow.countElement addr).lastInsert = zone.lastInsert ∧
      zone.grow.freeSpace = zone.freeSpace ∧ zone.grow.elemSize = zone.elemSize := by
  unfold Zone.countElement Zone.grow
  split_ifs
  all_goals exact ⟨⟨rfl, rfl, rfl⟩, rfl, rfl, rfl⟩

theorem handOut_setZone (s : State) (z addr size : ℕ) (zone : Zone) :
    (s.setZone z s.mem zone).handOut (some z) addr size =
      (s.handOut (some z) addr size).setZone z (s.handOut (some z) addr size).mem zone := by
  unfold handOut
  split_ifs
  · rfl
  · rfl

theorem handOut_zones (s : State) (owner : Option ℕ) (addr size : ℕ) :
    (s.handOut owner addr size).zones = s.zones := by
  unfold handOut
  split_ifs
  · rfl
  · rfl

theorem removeFromZone_null {zone : Zone} {mem : Memory}
    (removed : removeFromZone zone mem = (0, mem, zone)) : mem zone.freeElements = 0 := by
  rw [removeFromZone] at removed
  split at removed
  case isTrue some_left => exact absurd (Prod.mk.inj removed).1 some_left
  case isFalse none_left => exact not_not.mp none_left

/-- `zalloc`. -/
theorem Ok.alloc (ok : Ok exact p s ls es) {newSpace : ℕ}
    (allowed : s.Allowed p (.zalloc z newSpace)) (small : s.SmallCall p (.zalloc z newSpace))
    (lossless : exact → s.LosslessCall p (.zalloc z newSpace))
    (run : s.zalloc p z newSpace = some s') : ∃ ls' es', Ok exact p s' ls' es' := by
  have ⟨inside, fresh⟩ := allowed
  have ⟨inSpaces, may⟩ := ok.geometry.zone z inside
  rw [zalloc] at run
  generalize removed : removeFromZone (s.zones z) s.mem = taken at run
  obtain ⟨addr, mem, zone⟩ := taken
  dsimp only at run
  rcases ok.take inside removed with ⟨null, rfl, rfl⟩ | ⟨some_addr, size_eq, k, done⟩
  · rw [if_neg (not_not_intro null), zallocNew] at run
    dsimp only at run
    split at run
    · cases run
      exact ⟨ls, es, ok⟩
    split at run
    · cases run
      exact ⟨ls, es, ok⟩
    rename_i exhausted stopped
    have asks : s.Asks p z := by
      refine ⟨removeFromZone_null (by rw [removed, null]), fun full => ?_⟩
      have may := not_and.mp exhausted full
      have more := not_and.mp stopped full
      simpa [imp_iff_not_or] using And.intro may more
    have valid := may.valid (small asks)
    have ⟨rounded, _⟩ := ok.geometry.request inSpaces valid
    rw [rounded] at fresh
    -- The zone may have grown, and its counts change, which does not matter here.
    have granted : ∀ addr s₁, s.zgetSpace p (s.zones z).freeSpace (s.zones z).elemSize newSpace =
        some (addr, s₁) → ∀ zone : Zone, SameZone (s.zones z) zone →
        zone.lastInsert = (s.zones z).lastInsert →
        ∃ ls', Ok exact p ((s₁.setZone z s₁.mem zone).handOut (some z) addr
          (grantSize (s.zones z).elemSize)) ls' es := by
      intro addr s₁ got zone same last
      have own : ∀ y, some z = some y → y < p.numZones ∧
          (s.zones y).freeSpace = (s.zones z).freeSpace ∧
          (s.zones y).elemSize = (s.zones z).elemSize := by
        intro y equal
        cases equal
        exact ⟨inside, rfl, rfl⟩
      have ⟨ls', done⟩ := ok.get inSpaces valid fresh (fun sharp => lossless sharp asks) got own
      have zones : (s₁.handOut (some z) addr (grantSize (s.zones z).elemSize)).zones = s.zones := by
        rw [handOut_zones, zgetSpace_zones got]
      refine ⟨ls', ?_⟩
      rw [handOut_setZone]
      exact done.setCounts inside (by rw [zones]; exact same) (by rw [zones]; exact last)
    split at run
    · cases run
    rename_i addr s₁ got
    cases run
    have ⟨same, last, space_eq, size_eq⟩ := sameZone_grow (s.zones z) addr
    rw [space_eq, size_eq] at got
    have ⟨ls', done⟩ := granted addr s₁ got _ same last
    rw [size_eq]
    exact ⟨ls', es, done⟩
  · rw [if_pos some_addr] at run
    cases run
    exact ⟨ls, _, done⟩

/-- Each call keeps the invariant, and the account exact if the call loses nothing. -/
theorem Ok.next (ok : Ok exact p s ls es) {action : Action} (allowed : s.Allowed p action)
    (small : s.SmallCall p action) (lossless : exact → s.LosslessCall p action)
    (run : s.next p action = some s') : ∃ ls' es', Ok exact p s' ls' es' := by
  cases action with
  | zgetSpace f size newSpace =>
    have ⟨inside, may, fresh⟩ := allowed
    have valid := may.valid small
    have ⟨rounded, _⟩ := ok.geometry.request inside valid
    rw [rounded] at fresh
    rw [State.next] at run
    split at run
    · cases run
    rename_i result s₁ got
    cases run
    have got_ok : ∃ ls', Ok exact p (s₁.handOut none result (grantSize size)) ls' es :=
      ok.get inside valid fresh lossless got fun z none => by cases none
    have ⟨ls', done⟩ := got_ok
    exact ⟨ls', es, done⟩
  | zalloc z newSpace => exact ok.alloc allowed small lossless run
  | zfree z element =>
    have ⟨k, done⟩ := ok.free allowed run
    exact ⟨ls, _, done⟩
  | zoneCollect z => exact ok.collect allowed run
  | reclaim =>
    have some_space := ok.geometry.spaces_pos
    have ⟨ls', done⟩ := ok.reclaimSpaces (by omega) run
    exact ⟨ls', es, done⟩
  | write address value =>
    rw [State.next] at run
    split at run
    case isTrue owned =>
      cases run
      exact ⟨ls, es, ok.write owned⟩
    case isFalse => cases run

end Steps

end Darwin.Kern.Zalloc
