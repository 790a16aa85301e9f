import Darwin.Vm.Map.Allocate
import Darwin.Vm.Map.Range

/-!
# The calls on a range of a task's memory

`vm_deallocate`, `vm_reallocate`, `vm_inherit` and `vm_protect` round the range `[start, start +
size)` to whole pages, in 32 bits, and hand it on to the operations on the map.  The end of the
range can wrap around; `VM_MAP_RANGE_CHECK` then makes the range empty, and the call succeeds
without having reached its pages.  Two of the calls do not test for a size of 0, and then change the
page of `start` if `start` is inside of it.

The maps here are not `VM_MAP_NULL`, with which every call returns `KERN_INVALID_ARGUMENT`.

## Main results

* `vmUser_exact` - when a call that succeeds has changed the pages that it was asked to change
-/

namespace Darwin.Vm.Map

open Darwin.Lib VmMap

variable {O : Type*} {map : VmMap O} {a lo hi : ℕ}

/-! ## The calls -/

/-- `trunc_page`. -/
def truncPage (pageMask x : BitVec 32) : BitVec 32 := x &&& ~~~pageMask

/-- `round_page`. -/
def roundPage (pageMask x : BitVec 32) : BitVec 32 := (x + pageMask) &&& ~~~pageMask

/-- `vm_deallocate`. -/
def VmMap.vmDeallocate32 (map : VmMap O) (pageMask start size : BitVec 32) : KernReturn × VmMap O :=
  if size = 0 then (.success, map)
  else map.vmMapRemove (truncPage pageMask start).toNat (roundPage pageMask (start + size)).toNat

/-- `vm_reallocate`. -/
def VmMap.vmReallocate (map : VmMap O) (pageMask start size : BitVec 32) : KernReturn × VmMap O :=
  if size = 0 then (.success, map)
  else
    map.vmMapReallocate (truncPage pageMask start).toNat (roundPage pageMask (start + size)).toNat

/-- `vm_inherit`. -/
def VmMap.vmInherit (map : VmMap O) (pageMask start size newInheritance : BitVec 32) :
    KernReturn × VmMap O :=
  map.vmMapInherit (truncPage pageMask start).toNat (roundPage pageMask (start + size)).toNat
    newInheritance

/-- `vm_protect`. -/
def VmMap.vmProtect (map : VmMap O) (pageMask start size : BitVec 32) (setMaximum : Bool)
    (newProtection : BitVec 32) : KernReturn × VmMap O :=
  map.vmMapProtect (truncPage pageMask start).toNat (roundPage pageMask (start + size)).toNat
    newProtection setMaximum

/-- The calls, with the arguments other than the range. -/
inductive RangeCall where
  | deallocate
  | reallocate
  | inherit (newInheritance : BitVec 32)
  | protect (setMaximum : Bool) (newProtection : BitVec 32)

/-- A call on a map. -/
def RangeCall.run (call : RangeCall) (map : VmMap O) (pageMask start size : BitVec 32) :
    KernReturn × VmMap O :=
  match call with
  | .deallocate => map.vmDeallocate32 pageMask start size
  | .reallocate => map.vmReallocate pageMask start size
  | .inherit newInheritance => map.vmInherit pageMask start size newInheritance
  | .protect setMaximum newProtection =>
    map.vmProtect pageMask start size setMaximum newProtection

/-! ## What the calls are for -/

/-- What a call is to make of what an address is mapped to. -/
def RangeCall.effect : RangeCall → Mapping O → Option (Mapping O)
  | .deallocate, _ => none
  | .reallocate, m => some
      { object := none
        offset := 0
        protection := m.maxProtection &&& vmProtDefault
        maxProtection := m.maxProtection
        inheritance := m.inheritance }
  | .inherit newInheritance, m => some { m with inheritance := newInheritance }
  | .protect setMaximum newProtection, m => some (m.protect newProtection setMaximum)

/-- A mapping without an object has no offset. -/
def Mapping.shown (m : Mapping O) : Mapping O :=
  if m.object.isNone then { m with offset := 0 } else m

/-- What a map shows at an address. -/
def VmMap.shows (map : VmMap O) (a : ℕ) : Option (Mapping O) := (map.view a).map Mapping.shown

/-- What a map is to show at an address after a call. -/
def RangeCall.shows (call : RangeCall) (map : VmMap O) (a : ℕ) : Option (Mapping O) :=
  ((map.view a).bind call.effect).map Mapping.shown

/-- An address is on a page that meets the interval `[start, start + size)`. -/
def OnPages (page start size a : ℕ) : Prop :=
  ∃ x, start ≤ x ∧ x < start + size ∧ x / page = a / page

/-- A call has changed the pages that meet the interval, and no others. -/
def RangeCall.Done (call : RangeCall) (page start size : ℕ) (map map' : VmMap O) : Prop :=
  ∀ a, (OnPages page start size a → map'.shows a = call.shows map a) ∧
    (¬ OnPages page start size a → map'.shows a = map.shows a)

/-! ## When they do it -/

/-- A call would change nothing on some addresses. -/
def RangeCall.Idle (call : RangeCall) (map : VmMap O) (within : ℕ → Prop) : Prop :=
  ∀ a, within a → call.shows map a = map.shows a

/-- A call on a range is refused. -/
def RangeCall.Refused (call : RangeCall) (map : VmMap O) (lo hi : ℕ) : Prop :=
  match call with
  | .deallocate => False
  | .reallocate => False
  | .inherit newInheritance => 2 < newInheritance.toNat
  | .protect _ newProtection => ¬ map.Allows newProtection lo hi

/-- The calls that return at once when the size is 0. -/
def RangeCall.testsSize : RangeCall → Bool
  | .deallocate => true
  | .reallocate => true
  | .inherit _ => false
  | .protect _ _ => false

/-- The end of the interval, rounded up to a page, wraps around. -/
def Wraps (page start size : ℕ) : Prop := 2 ^ 32 < start + size + page

instance (page start size : ℕ) : Decidable (Wraps page start size) :=
  inferInstanceAs (Decidable (2 ^ 32 < start + size + page))

/-- Where the pages begin that a call does not reach after its end has wrapped around.  It reaches
the page of `start`, unless that is the last one, if the end comes to lie in it. -/
def missedFrom (page start size : ℕ) : ℕ :=
  if start / page * page + 2 ^ 32 < start + size ∧ start / page * page + page < 2 ^ 32 then
    start / page * page + page
  else start / page * page

/-- The end of the range that a call works on. -/
def reachedStop (page start size : ℕ) : ℕ :=
  if Wraps page start size then missedFrom page start size
  else (start + size + (page - 1)) / page * page

/-- The call is refused; or its end does not wrap around, and its size is not 0, or is tested, or
its start is the first address of a page; or else it has nothing to change on the pages where it
goes wrong. -/
def RangeCall.Sound (call : RangeCall) (map : VmMap O) (page start size : ℕ) : Prop :=
  call.Refused map (start / page * page) (reachedStop page start size) ∨
    if Wraps page start size then
      size = 0 ∨ call.Idle map fun a => missedFrom page start size ≤ a
    else
      0 < size ∨ call.testsSize = true ∨ page ∣ start ∨
        call.Idle map fun a => start / page = a / page

/-! ## Rounding -/

section Rounding

variable {k : ℕ}

theorem pow_page_le (small : k < 32) : 2 ^ k ≤ 2 ^ 31 :=
  Nat.pow_le_pow_right (by decide) (by omega)

theorem toNat_and_not_mask (small : k < 32) (x : BitVec 32) :
    (x &&& ~~~BitVec.ofNat 32 (2 ^ k - 1)).toNat = x.toNat / 2 ^ k * 2 ^ k := by
  have bound := pow_page_le small
  have low : (x &&& BitVec.ofNat 32 (2 ^ k - 1)).toNat = x.toNat % 2 ^ k := by
    rw [BitVec.toNat_and, BitVec.toNat_ofNat, Nat.mod_eq_of_lt (by omega),
      Nat.and_two_pow_sub_one_eq_mod]
  have sum := congrArg BitVec.toNat (and_add_and_not x (BitVec.ofNat 32 (2 ^ k - 1)))
  have parts := Nat.div_add_mod' x.toNat (2 ^ k)
  have small := x.isLt
  rw [BitVec.toNat_add, low] at sum
  omega

theorem toNat_truncPage (small : k < 32) (x : BitVec 32) :
    (truncPage (BitVec.ofNat 32 (2 ^ k - 1)) x).toNat = x.toNat / 2 ^ k * 2 ^ k :=
  toNat_and_not_mask small x

theorem toNat_roundPage (small : k < 32) (x : BitVec 32) :
    (roundPage (BitVec.ofNat 32 (2 ^ k - 1)) x).toNat =
      (x.toNat + (2 ^ k - 1)) % 2 ^ 32 / 2 ^ k * 2 ^ k := by
  have bound := pow_page_le small
  rw [roundPage, toNat_and_not_mask small, BitVec.toNat_add, BitVec.toNat_ofNat,
    Nat.mod_eq_of_lt (show 2 ^ k - 1 < 2 ^ 32 by omega)]

/-- Two different multiples of the page size are at least a page apart. -/
theorem add_le_of_dvd {page u v : ℕ} (dvd : page ∣ u) (dvd' : page ∣ v) (lt : u < v) :
    u + page ≤ v := by
  have := Nat.le_of_dvd (Nat.sub_pos_of_lt lt) (Nat.dvd_sub dvd' dvd)
  omega

theorem div_mul_eq {page u x : ℕ} (dvd : page ∣ u) (le : u ≤ x) (lt : x < u + page) :
    x / page * page = u := by
  have bound := Nat.div_mul_le_self x page
  have next := Nat.lt_div_mul_add (a := x) (b := page) (by omega)
  rcases lt_trichotomy (x / page * page) u with below | same | above
  · have := add_le_of_dvd (dvd_mul_left page (x / page)) dvd below
    omega
  · exact same
  · have := add_le_of_dvd dvd (dvd_mul_left page (x / page)) above
    omega

/-- The addresses between the rounded ends: without a wrap-around those up to the next page, and
with one those of the page of `start`, or none. -/
theorem mem_rounded (small : k < 32) (start size : BitVec 32) (a : ℕ) :
    (truncPage (BitVec.ofNat 32 (2 ^ k - 1)) start).toNat ≤ a ∧
        a < (roundPage (BitVec.ofNat 32 (2 ^ k - 1)) (start + size)).toNat ↔
      start.toNat / 2 ^ k * 2 ^ k ≤ a ∧ a < reachedStop (2 ^ k) start.toNat size.toNat := by
  rw [toNat_truncPage small, toNat_roundPage small, BitVec.toNat_add, reachedStop, missedFrom]
  have whole : 2 ^ k ∣ 2 ^ 32 := pow_dvd_pow 2 small.le
  have pos : 0 < 2 ^ k := Nat.two_pow_pos k
  have h₁ := start.isLt
  have h₂ := size.isLt
  generalize start.toNat = m at *
  generalize size.toNat = n at *
  generalize 2 ^ k = page at *
  have dvd : page ∣ m / page * page := dvd_mul_left page (m / page)
  have low := Nat.div_mul_le_self m page
  have next := Nat.lt_div_mul_add (a := m) (b := page) pos
  generalize m / page * page = t at *
  by_cases wraps : Wraps page m n
  · rw [if_pos wraps]
    have wraps' : 2 ^ 32 < m + n + page := wraps
    split_ifs with reaches
    · -- the end lies in the page of `start`
      have full : t + page + page ≤ 2 ^ 32 :=
        add_le_of_dvd (Nat.dvd_add dvd (Nat.dvd_refl page)) whole reaches.2
      rw [show (m + n) % 2 ^ 32 = m + n - 2 ^ 32 by omega,
        Nat.mod_eq_of_lt (show m + n - 2 ^ 32 + (page - 1) < 2 ^ 32 by omega),
        div_mul_eq (Nat.dvd_add dvd (Nat.dvd_refl page)) (by omega) (by omega)]
    · have stop : ((m + n) % 2 ^ 32 + (page - 1)) % 2 ^ 32 < t + page := by
        rcases not_and_or.mp reaches with before | last
        · omega
        · omega
      have rounded : ((m + n) % 2 ^ 32 + (page - 1)) % 2 ^ 32 / page * page ≤ t := by
        by_contra above
        have := add_le_of_dvd dvd (dvd_mul_left page _) (not_le.mp above)
        have := Nat.div_mul_le_self (((m + n) % 2 ^ 32 + (page - 1)) % 2 ^ 32) page
        omega
      omega
  · have wraps' : ¬ 2 ^ 32 < m + n + page := wraps
    rw [if_neg wraps, Nat.mod_eq_of_lt (show m + n < 2 ^ 32 by omega),
      Nat.mod_eq_of_lt (show m + n + (page - 1) < 2 ^ 32 by omega)]

/-- The pages that meet the interval, up to where its end wraps around. -/
theorem onPages_iff (small : k < 32) {start size : ℕ} (bounded : a < 2 ^ 32) :
    OnPages (2 ^ k) start size a ↔ 0 < size ∧ start / 2 ^ k * 2 ^ k ≤ a ∧
      (Wraps (2 ^ k) start size ∨ a < reachedStop (2 ^ k) start size) := by
  have whole : 2 ^ k ∣ 2 ^ 32 := pow_dvd_pow 2 small.le
  have pos : 0 < 2 ^ k := Nat.two_pow_pos k
  generalize 2 ^ k = page at *
  have low := Nat.div_mul_le_self start page
  have next := Nat.lt_div_mul_add (a := start) (b := page) pos
  have dvd : page ∣ start / page * page := dvd_mul_left page _
  have dvd' : page ∣ a / page * page := dvd_mul_left page _
  have low' := Nat.div_mul_le_self a page
  have next' := Nat.lt_div_mul_add (a := a) (b := page) pos
  have top : a / page * page + page ≤ 2 ^ 32 := add_le_of_dvd dvd' whole (by omega)
  -- a point of the interval on the page of `a`: the first one of both
  have meets : OnPages page start size a ↔
      start < a / page * page + page ∧ a / page * page < start + size ∧ 0 < size := by
    constructor
    · rintro ⟨x, from_, to_, same⟩
      have := Nat.div_mul_le_self x page
      have := Nat.lt_div_mul_add (a := x) (b := page) pos
      rw [same] at *
      omega
    · rintro ⟨below, above, some_⟩
      refine ⟨max start (a / page * page), by omega, by omega, ?_⟩
      have same : max start (a / page * page) / page * page = a / page * page :=
        div_mul_eq dvd' (by omega) (by omega)
      exact Nat.eq_of_mul_eq_mul_right pos same
  rw [meets]
  have first : start < a / page * page + page ↔ start / page * page ≤ a := by
    constructor
    · intro below
      by_contra above
      have := add_le_of_dvd dvd' dvd (by omega)
      omega
    · intro above
      by_contra below
      have := add_le_of_dvd dvd' dvd (by omega)
      omega
  rw [first]
  by_cases wraps : Wraps page start size
  · have wraps' : 2 ^ 32 < start + size + page := wraps
    constructor
    · rintro ⟨h₁, -, h₂⟩
      exact ⟨h₂, h₁, .inl wraps⟩
    · rintro ⟨h₂, h₁, -⟩
      exact ⟨h₁, by omega, h₂⟩
  · rw [reachedStop, if_neg wraps]
    have last : a / page * page < start + size ↔ a < (start + size + (page - 1)) / page * page := by
      have dvd'' : page ∣ (start + size + (page - 1)) / page * page := dvd_mul_left page _
      have low'' := Nat.div_mul_le_self (start + size + (page - 1)) page
      have next'' := Nat.lt_div_mul_add (a := start + size + (page - 1)) (b := page) pos
      constructor
      · intro below
        by_contra above
        have := add_le_of_dvd dvd'' (Nat.dvd_add dvd' (Nat.dvd_refl page)) (by omega)
        omega
      · intro below
        have := add_le_of_dvd dvd' dvd'' (by omega)
        omega
    rw [last]
    tauto

end Rounding

/-! ## Success -/

/-- A range is checked without a change to which of the mapped addresses it contains. -/
theorem VmMap.Inv.mem_rangeCheck (inv : map.Inv) (mapped : map.view a ≠ none) :
    (map.rangeCheck lo hi).1 ≤ a ∧ a < (map.rangeCheck lo hi).2 ↔ lo ≤ a ∧ a < hi := by
  obtain ⟨e, found⟩ := Option.ne_none_iff_exists'.mp mapped
  obtain ⟨e, covers, -⟩ := Option.map_eq_some_iff.mp found
  obtain ⟨mem, from_, to_⟩ := covering_some covers
  obtain ⟨low, -, high⟩ := inv.list.segments.bounds mem
  rw [rangeCheck]
  split_ifs <;> omega

theorem VmMap.Inv.allows_rangeCheck (inv : map.Inv) {newProt : BitVec 32} :
    map.Allows newProt (map.rangeCheck lo hi).1 (map.rangeCheck lo hi).2 ↔
      map.Allows newProt lo hi := by
  constructor
  · intro allows a mapping from_ to_ view
    obtain ⟨from', to'⟩ := (inv.mem_rangeCheck (by rw [view]; simp)).mpr ⟨from_, to_⟩
    exact allows a mapping from' to' view
  · intro allows a mapping from_ to_ view
    obtain ⟨from', to'⟩ := (inv.mem_rangeCheck (by rw [view]; simp)).mp ⟨from_, to_⟩
    exact allows a mapping from' to' view

namespace RangeCall

/-- Only mapped addresses count, so that the check of the range makes no difference. -/
theorem shows_rangeCheck (call : RangeCall) (inv : map.Inv) {map' : VmMap O}
    (shown : ∀ a, map'.shows a =
      if (map.rangeCheck lo hi).1 ≤ a ∧ a < (map.rangeCheck lo hi).2 then call.shows map a
      else map.shows a) (a : ℕ) :
    map'.shows a = if lo ≤ a ∧ a < hi then call.shows map a else map.shows a := by
  rw [shown]
  by_cases mapped : map.view a = none
  · have same : call.shows map a = map.shows a := by
      rw [shows, VmMap.shows, mapped]
      rfl
    rw [same, ite_self, ite_self]
  · exact if_congr (inv.mem_rangeCheck mapped) rfl rfl

/-- What a call does that does not return at once: it is refused, or it has its effect between the
rounded ends. -/
theorem run_spec (call : RangeCall) (inv : map.Inv) (pageMask start size : BitVec 32)
    (goesOn : call.testsSize = true → size ≠ 0) :
    let lo := (truncPage pageMask start).toNat
    let hi := (roundPage pageMask (start + size)).toNat
    (call.Refused map lo hi → (call.run map pageMask start size).1 ≠ .success) ∧
      (¬ call.Refused map lo hi → (call.run map pageMask start size).1 = .success ∧
        ∀ a, (call.run map pageMask start size).2.shows a =
          if lo ≤ a ∧ a < hi then call.shows map a else map.shows a) := by
  intro lo hi
  cases call with
  | deallocate =>
    refine ⟨by rintro ⟨⟩, fun _ => ?_⟩
    rw [run, vmDeallocate32, if_neg (goesOn rfl), vmMapRemove]
    obtain ⟨-, success, view⟩ := inv.delete (map.rangeCheck lo hi).1 (map.rangeCheck lo hi).2
    refine ⟨success, deallocate.shows_rangeCheck inv fun a => ?_⟩
    rw [VmMap.shows, view]
    split_ifs
    · rw [shows]
      cases map.view a with
      | none => rfl
      | some m => rfl
    · rfl
  | reallocate =>
    refine ⟨by rintro ⟨⟩, fun _ => ?_⟩
    rw [run, vmReallocate, if_neg (goesOn rfl)]
    obtain ⟨-, success, view⟩ := inv.reallocate lo hi
    refine ⟨success, reallocate.shows_rangeCheck inv fun a => ?_⟩
    rw [VmMap.shows, view]
    split_ifs
    · rw [shows, VmMap.view, viewList]
      cases entryAt map.entries a with
      | none => rfl
      | some e => rfl
    · rfl
  | inherit newInheritance =>
    rw [run, vmInherit]
    obtain ⟨-, known, unknown⟩ := inv.inherit lo hi newInheritance
    refine ⟨fun refused => ?_, fun accepted => ?_⟩
    · rw [unknown refused]
      rintro ⟨⟩
    obtain ⟨success, view⟩ := known (not_lt.mp accepted)
    refine ⟨success, (inherit newInheritance).shows_rangeCheck inv fun a => ?_⟩
    rw [VmMap.shows, view]
    split_ifs
    · rw [shows]
      cases map.view a with
      | none => rfl
      | some m => rfl
    · rfl
  | protect setMaximum newProtection =>
    rw [run, vmProtect]
    obtain ⟨-, allowed, denied⟩ := inv.protect lo hi newProtection setMaximum
    rw [inv.allows_rangeCheck] at allowed denied
    refine ⟨fun refused => ?_, fun accepted => ?_⟩
    · rw [(denied refused).1]
      rintro ⟨⟩
    obtain ⟨success, view⟩ := allowed (not_not.mp accepted)
    refine ⟨success,
      (protect setMaximum newProtection).shows_rangeCheck inv fun a => ?_⟩
    rw [VmMap.shows, view]
    split_ifs
    · rw [shows]
      cases map.view a with
      | none => rfl
      | some m => rfl
    · rfl

end RangeCall

/-! ## Exactness -/

section Exact

variable {k : ℕ} {start size : BitVec 32} (call : RangeCall)

/-- What is not mapped is shown as it was. -/
theorem RangeCall.shows_of_unmapped (unmapped : map.view a = none) :
    call.shows map a = map.shows a := by
  rw [RangeCall.shows, VmMap.shows, unmapped]
  rfl

/-- A range matters for a refusal by its addresses only. -/
theorem RangeCall.refused_congr {lo' hi' : ℕ}
    (same : ∀ a, lo ≤ a ∧ a < hi ↔ lo' ≤ a ∧ a < hi') :
    call.Refused map lo hi ↔ call.Refused map lo' hi' := by
  cases call with
  | deallocate => exact Iff.rfl
  | reallocate => exact Iff.rfl
  | inherit newInheritance => exact Iff.rfl
  | protect setMaximum newProtection =>
    refine not_congr ⟨fun allows a mapping from_ to_ => ?_, fun allows a mapping from_ to_ => ?_⟩
    · obtain ⟨from', to'⟩ := (same a).mpr ⟨from_, to_⟩
      exact allows a mapping from' to'
    · obtain ⟨from', to'⟩ := (same a).mp ⟨from_, to_⟩
      exact allows a mapping from' to'

/-- Mapped addresses are addresses of the map. -/
theorem VmMap.Inv.mapped_lt (inv : map.Inv) (mapped : map.view a ≠ none) : a < map.maxOffset := by
  obtain ⟨m, found⟩ := Option.ne_none_iff_exists'.mp mapped
  obtain ⟨e, covers, -⟩ := Option.map_eq_some_iff.mp found
  obtain ⟨mem, -, to_⟩ := covering_some covers
  exact to_.trans_le (inv.list.segments.bounds mem).2.2

/-- A call that has its effect on a range has done its work if that is the range of the pages that
meet the interval, as far as there is something to change. -/
theorem RangeCall.done_iff (inv : map.Inv) {map' : VmMap O} {page m n : ℕ}
    (view : ∀ a, map'.shows a = if lo ≤ a ∧ a < hi then call.shows map a else map.shows a) :
    call.Done page m n map map' ↔
      call.Idle map fun a => a < map.maxOffset ∧ ¬ (OnPages page m n a ↔ lo ≤ a ∧ a < hi) := by
  constructor
  · rintro done a ⟨-, differ⟩
    obtain ⟨mem, outside⟩ := done a
    rw [view] at mem outside
    by_cases asked : OnPages page m n a
    · rw [if_neg fun reached => differ ⟨fun _ => reached, fun _ => asked⟩] at mem
      exact (mem asked).symm
    by_cases reached : lo ≤ a ∧ a < hi
    · rw [if_pos reached] at outside
      exact outside asked
    · exact absurd ⟨fun h => absurd h asked, fun h => absurd h reached⟩ differ
  · intro idle a
    rw [view]
    by_cases mapped : map.view a = none
    · rw [call.shows_of_unmapped mapped, ite_self]
      exact ⟨fun _ => rfl, fun _ => rfl⟩
    have mem := inv.mapped_lt mapped
    constructor
    · intro asked
      split_ifs with reached
      · rfl
      · exact (idle a ⟨mem, fun same => reached (same.mp asked)⟩).symm
    · intro other
      split_ifs with reached
      · exact idle a ⟨mem, fun same => other (same.mpr reached)⟩
      · rfl

/-- Only the addresses of the map count for whether there is something to change. -/
theorem RangeCall.idle_congr (inv : map.Inv) {within within' : ℕ → Prop}
    (same : ∀ a, a < map.maxOffset → (within a ↔ within' a)) :
    call.Idle map within ↔ call.Idle map within' := by
  refine forall_congr' fun a => ?_
  by_cases mapped : map.view a = none
  · exact ⟨fun _ _ => call.shows_of_unmapped mapped, fun _ _ => call.shows_of_unmapped mapped⟩
  · rw [same a (inv.mapped_lt mapped)]

/-- An interval without addresses meets no page. -/
theorem not_onPages_zero {page m : ℕ} : ¬ OnPages page m 0 a := by
  rintro ⟨x, from_, to_, -⟩
  omega

/-- The range that a call reaches for an empty interval whose end does not wrap around. -/
theorem mem_reached_zero {m : ℕ} (wraps : ¬ Wraps (2 ^ k) m 0) :
    (m / 2 ^ k * 2 ^ k ≤ a ∧ a < reachedStop (2 ^ k) m 0) ↔
      ¬ 2 ^ k ∣ m ∧ m / 2 ^ k = a / 2 ^ k := by
  have pos : 0 < 2 ^ k := Nat.two_pow_pos k
  rw [reachedStop, if_neg wraps, add_zero]
  generalize 2 ^ k = page at *
  have low := Nat.div_mul_le_self m page
  have next := Nat.lt_div_mul_add (a := m) (b := page) pos
  have dvd : page ∣ m / page * page := dvd_mul_left page _
  have onPage : m / page = a / page ↔ m / page * page ≤ a ∧ a < m / page * page + page := by
    constructor
    · intro same
      rw [same]
      exact ⟨Nat.div_mul_le_self a page, Nat.lt_div_mul_add pos⟩
    · intro within
      exact (Nat.eq_of_mul_eq_mul_right pos (div_mul_eq dvd within.1 within.2)).symm
  by_cases aligned : page ∣ m
  · have start : m / page * page = m := Nat.div_mul_cancel aligned
    have stop : (m + (page - 1)) / page * page = m := div_mul_eq aligned (by omega) (by omega)
    rw [stop, start]
    exact ⟨fun within => by omega, fun within => absurd aligned within.1⟩
  · have mem : m / page * page ≠ m := fun same => aligned (same ▸ dvd)
    have stop : (m + (page - 1)) / page * page = m / page * page + page :=
      div_mul_eq (Nat.dvd_add dvd (Nat.dvd_refl page)) (by omega) (by omega)
    rw [stop, onPage]
    exact ⟨fun within => ⟨aligned, within⟩, fun within => within.2⟩

/-- A call that succeeds has changed the pages that meet its interval, and no others, if and only if
its end does not wrap around and it does not mistake an empty interval for a page, or it has nothing
to change on the pages where it goes wrong. -/
theorem vmUser_exact (call : RangeCall) (inv : map.Inv) (bound : map.maxOffset ≤ 2 ^ 32)
    (small : k < 32) (start size : BitVec 32) :
    ((call.run map (BitVec.ofNat 32 (2 ^ k - 1)) start size).1 = .success →
      call.Done (2 ^ k) start.toNat size.toNat map
        (call.run map (BitVec.ofNat 32 (2 ^ k - 1)) start size).2) ↔
    call.Sound map (2 ^ k) start.toNat size.toNat := by
  have reached := mem_rounded small start size
  have asked (a : ℕ) (mem : a < map.maxOffset) :=
    @onPages_iff a k small start.toNat size.toNat (mem.trans_le bound)
  by_cases returns : call.testsSize = true ∧ size = 0
  · obtain ⟨tests, rfl⟩ := returns
    have run : call.run map (BitVec.ofNat 32 (2 ^ k - 1)) start 0 = (.success, map) := by
      cases call with
      | deallocate => rfl
      | reallocate => rfl
      | inherit newInheritance => cases tests
      | protect setMaximum newProtection => cases tests
    rw [run]
    refine ⟨fun _ => .inr ?_, fun _ _ a => ⟨fun on => absurd on not_onPages_zero, fun _ => rfl⟩⟩
    split_ifs
    · exact .inl rfl
    · exact .inr (.inl tests)
  · have goesOn : call.testsSize = true → size ≠ 0 := fun tests zero => returns ⟨tests, zero⟩
    obtain ⟨refuses, accepts⟩ := call.run_spec inv (BitVec.ofNat 32 (2 ^ k - 1)) start size goesOn
    rw [call.refused_congr reached] at refuses accepts
    rw [RangeCall.Sound]
    by_cases refused : call.Refused map (start.toNat / 2 ^ k * 2 ^ k)
        (reachedStop (2 ^ k) start.toNat size.toNat)
    · exact ⟨fun _ => .inl refused, fun _ success => absurd success (refuses refused)⟩
    obtain ⟨success, view⟩ := accepts refused
    simp only [reached] at view
    rw [forall_prop_of_true success, call.done_iff inv view, or_iff_right refused]
    have low := start.isLt
    have pos : 0 < 2 ^ k := Nat.two_pow_pos k
    generalize start.toNat = m at *
    have zero : size.toNat = 0 → call.testsSize ≠ true := fun none_ tests =>
      goesOn tests (BitVec.eq_of_toNat_eq none_)
    generalize size.toNat = n at *
    by_cases wraps : Wraps (2 ^ k) m n
    · rw [if_pos wraps]
      rcases Nat.eq_zero_or_pos n with rfl | some_
      · refine ⟨fun _ => .inl rfl, fun _ a different => absurd ?_ different.2⟩
        have stop : reachedStop (2 ^ k) m 0 = m / 2 ^ k * 2 ^ k := by
          have := Nat.div_mul_le_self m (2 ^ k)
          rw [reachedStop, if_pos wraps, missedFrom, if_neg (by omega)]
        rw [stop]
        exact ⟨fun on => absurd on not_onPages_zero, fun within => by omega⟩
      · rw [or_iff_right some_.ne']
        refine call.idle_congr inv fun a mem => ?_
        have stop : reachedStop (2 ^ k) m n = missedFrom (2 ^ k) m n := if_pos wraps
        have low : m / 2 ^ k * 2 ^ k ≤ missedFrom (2 ^ k) m n := by
          rw [missedFrom]
          split_ifs <;> omega
        rw [asked a mem, stop]
        constructor
        · rintro ⟨-, different⟩
          by_contra below
          exact different ⟨fun on => ⟨on.2.1, by omega⟩, fun within =>
            ⟨some_, within.1, .inl wraps⟩⟩
        · intro above
          exact ⟨mem, fun same => by
            have := (same.mp ⟨some_, by omega, .inl wraps⟩).2
            omega⟩
    · rw [if_neg wraps]
      rcases Nat.eq_zero_or_pos n with rfl | some_
      · rw [or_iff_right (lt_irrefl 0), or_iff_right (zero rfl)]
        by_cases aligned : 2 ^ k ∣ m
        · refine ⟨fun _ => .inl aligned, fun _ a different => absurd ?_ different.2⟩
          rw [mem_reached_zero wraps]
          exact ⟨fun on => absurd on not_onPages_zero, fun within => absurd aligned within.1⟩
        rw [or_iff_right aligned]
        refine call.idle_congr inv fun a mem => ?_
        rw [mem_reached_zero wraps]
        constructor
        · rintro ⟨-, different⟩
          by_contra other
          exact different ⟨fun on => absurd on not_onPages_zero,
            fun within => absurd within.2 other⟩
        · intro same
          exact ⟨mem, fun iff => not_onPages_zero (iff.mpr ⟨aligned, same⟩)⟩
      · refine ⟨fun _ => .inl some_, fun _ a different => absurd ?_ different.2⟩
        rw [asked a different.1, or_iff_right wraps]
        exact ⟨fun on => on.2, fun within => ⟨some_, within⟩⟩

/-- A page of a map from address 0 up to `VM_MAX_ADDRESS`. -/
def userPage : Entry ℕ where
  id := 0
  start := 0x1000
  stop := 0x2000
  object := some 7
  offset := 0
  isAMap := false
  isShared := false
  isSubMap := false
  copyOnWrite := false
  inTransition := false
  needsWakeup := false
  needsCopy := false
  protection := vmProtDefault
  maxProtection := vmProtAll
  inheritance := vmInheritDefault
  wiredCount := 0
  userWiredCount := 0

/-- A map with one page. -/
def userMap : VmMap ℕ where
  minOffset := 0
  maxOffset := 0xC0000000
  entries := [userPage]
  counts := ⟨1, 0x1000, 1⟩
  hint := none
  firstFree := none
  isMainMap := true

theorem userMap_inv : userMap.Inv where
  list := {
    segments := ⟨by decide, by decide, by decide, by rw [Segments]; decide⟩
    distinct := List.nodup_singleton _
    old := by decide
    nentries := rfl
    size := by decide
    noSubMap := by decide }
  hint := nofun
  firstFree := nofun
  main := rfl

/-- A page is deallocated. -/
theorem vmUser_exact_page :
    RangeCall.deallocate.Done (2 ^ 12) 0x1000 0x1000 userMap
      (RangeCall.deallocate.run userMap (BitVec.ofNat 32 (2 ^ 12 - 1)) 0x1000 0x1000).2 := by
  have sound : RangeCall.deallocate.Sound userMap (2 ^ 12) 0x1000 0x1000 := by
    refine .inr ?_
    rw [if_neg (by decide)]
    exact .inl (by decide)
  exact (vmUser_exact (k := 12) .deallocate userMap_inv (by decide) (by decide) 0x1000
    0x1000).mpr sound rfl

/-- `vm_deallocate` of everything from 0x1000 on succeeds and leaves the page there, since the end
of the range wraps around; `vm_protect` of no bytes at 0x1800 takes the write permission from the
page there. -/
theorem vmUser_misses :
    ¬ ((RangeCall.deallocate.run userMap 0xFFF 0x1000 0xFFFFF800).1 = .success →
      RangeCall.deallocate.Done 0x1000 0x1000 0xFFFFF800 userMap
        (RangeCall.deallocate.run userMap 0xFFF 0x1000 0xFFFFF800).2) ∧
    ¬ (((RangeCall.protect false 1).run userMap 0xFFF 0x1800 0).1 = .success →
      (RangeCall.protect false 1).Done 0x1000 0x1800 0 userMap
        ((RangeCall.protect false 1).run userMap 0xFFF 0x1800 0).2) := by
  constructor
  · intro done
    have gone := (done (by decide) 0x1000).1 ⟨0x1000, by decide, by decide, rfl⟩
    have seen : true = false := congrArg Option.isSome gone
    cases seen
  · intro done
    have kept := (done (by decide) 0x1000).2 (by rintro ⟨x, from_, to_, -⟩; omega)
    have seen : some (1 : BitVec 32) = some 3 :=
      congrArg (Option.map Mapping.protection) kept
    exact absurd seen (by decide)

end Exact

end Darwin.Vm.Map
