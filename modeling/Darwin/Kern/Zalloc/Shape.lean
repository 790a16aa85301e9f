import Darwin.Kern.Zalloc.Space

/-!
# The free spaces of the kernel

The default space takes requests of any size and has one hint; a collectable space is for multiples
of its unit.  In both the index of a size tells what the proofs about the lists rely on.

## Main results

* `measured_default`, `measured_collectable`: the sizes of both kinds are measured by their indices.
-/

namespace Darwin.Kern.Zalloc

open Darwin.Lib

section Shapes

variable {space : FreeSpace} {l : List Range} {n k : ℕ}

/-- The default space has one hint; a collectable space has units of a power of two, and a hint for
each number of units up to `alloc_max`. -/
def Shaped (space : FreeSpace) (f : ℕ) : Prop :=
  if f = 0 then space.allocMax = 0 ∧ space.hashShift = 0 ∧ space.numHints = 1
  else ∃ k, 4 ≤ k ∧ space.allocUnit = 2 ^ k ∧ space.hashShift = k ∧
    space.numHints = space.allocMax / 2 ^ k ∧ 0 < space.allocMax ∧ 2 ^ k ∣ space.allocMax ∧
    space.allocMax < 2147483648

theorem default_hash (shaped : Shaped space 0) (big : 16 ≤ n) (small : n < 2147483648) :
    zoneFreeSpaceHash space n = 1 := by
  rw [Shaped, if_pos rfl] at shaped
  rw [zoneFreeSpaceHash, shaped.2.1, shaped.2.2, Nat.shiftRight_zero, toInteger, if_pos small]
  rw [if_pos (by omega)]

theorem measured_default (shaped : Shaped space 0) : Measured space 16 2147483648 := by
  have hash : ∀ {n}, Fits 16 2147483648 n → zoneFreeSpaceHash space n = 1 := fun fits =>
    default_hash shaped (fits.big (Nat.dvd_refl 16)) fits.2.2
  rw [Shaped, if_pos rfl] at shaped
  refine ⟨⟨?_, ?_, ?_, ?_⟩, Nat.dvd_refl 16, by omega⟩
  · intro n fits
    rw [hash fits, shaped.2.2]
    omega
  · intro m n fits _ below
    rw [hash fits, shaped.2.2] at below
    omega
  · intro n fits
    rw [hash fits, shaped.2.2, shaped.1]
    omega
  · intro m n fits fits' _
    exact Int.le_of_eq ((hash fits).trans (hash fits').symm)

/-- The index of a size in a collectable space. -/
theorem collectable_hash (shift : space.hashShift = k) (four : 4 ≤ k)
    (hints : space.numHints = space.allocMax / 2 ^ k) (small : n < 4294967296) :
    zoneFreeSpaceHash space n = min ((n / 2 ^ k : ℕ) : ℤ) ((space.allocMax / 2 ^ k : ℕ) : ℤ) := by
  have power : 2 ^ 4 ≤ 2 ^ k := Nat.pow_le_pow_right (by omega) four
  have quotient : n / 2 ^ k ≤ n / 2 ^ 4 := Nat.div_le_div_left power (by omega)
  have units : n / 2 ^ k < 2147483648 := by omega
  rw [zoneFreeSpaceHash, shift, Nat.shiftRight_eq_div_pow, toInteger, if_pos units, hints]
  push_cast
  split_ifs <;> omega

theorem measured_collectable (four : 4 ≤ k) (unit : space.allocUnit = 2 ^ k)
    (shift : space.hashShift = k) (hints : space.numHints = space.allocMax / 2 ^ k)
    (positive : 0 < space.allocMax) (whole : 2 ^ k ∣ space.allocMax) :
    Measured space space.allocUnit 4294967296 := by
  have some_unit : 0 < 2 ^ k := Nat.pow_pos (by omega)
  obtain ⟨q, max⟩ := whole
  have total : space.allocMax / 2 ^ k = q := by rw [max, Nat.mul_div_cancel_left _ some_unit]
  have some_hints : 0 < q := Nat.pos_of_ne_zero (by
    rintro rfl
    omega)
  have hash : ∀ {n}, Fits (2 ^ k) 4294967296 n → ∃ m, n = 2 ^ k * m ∧ 0 < m ∧
      zoneFreeSpaceHash space n = min (m : ℤ) (q : ℤ) := by
    rintro n ⟨some_size, ⟨m, rfl⟩, small⟩
    refine ⟨m, rfl, Nat.pos_of_mul_pos_left some_size, ?_⟩
    rw [collectable_hash shift four hints small, total, Nat.mul_div_cancel_left _ some_unit]
  have numHints : space.numHints = q := by
    rw [hints, ← total]
    rfl
  have header : 16 ∣ 2 ^ k := Nat.pow_dvd_pow 2 four
  rw [unit]
  refine ⟨⟨?_, ?_, ?_, ?_⟩, header, Nat.le_refl _⟩
  · intro n fits
    obtain ⟨m, rfl, some_units, hash⟩ := hash fits
    rw [hash, numHints]
    omega
  · intro m n fits fits' below
    obtain ⟨a, rfl, _, hash_a⟩ := hash fits
    obtain ⟨b, rfl, _, hash_b⟩ := hash fits'
    rw [hash_a, numHints] at below
    rw [hash_a, hash_b, Nat.mul_right_inj (by omega)]
    omega
  · intro n fits
    obtain ⟨m, rfl, _, hash⟩ := hash fits
    rw [hash, numHints, max, Nat.mul_le_mul_left_iff some_unit]
    omega
  · intro m n fits fits' le
    obtain ⟨a, rfl, _, hash_a⟩ := hash fits
    obtain ⟨b, rfl, _, hash_b⟩ := hash fits'
    rw [Nat.mul_le_mul_left_iff some_unit] at le
    rw [hash_a, hash_b]
    omega

theorem Shaped.numHints_pos {f : ℕ} (shaped : Shaped space f) : 1 ≤ space.numHints := by
  by_cases default : f = 0
  · rw [Shaped, if_pos default] at shaped
    omega
  rw [Shaped, if_neg default] at shaped
  obtain ⟨k, -, -, -, hints, positive, whole, -⟩ := shaped
  have some_hints := Nat.div_pos (Nat.le_of_dvd positive whole) (Nat.pow_pos (by omega))
  rw [hints]
  exact_mod_cast some_hints

/-- The entries with an index below the last one, by their length. -/
theorem Shaped.bucket_eq {f i : ℕ} (shaped : Shaped space f) (some_size : 1 ≤ i)
    (below : (i : ℤ) < space.numHints)
    (fits : f ≠ 0 → ∀ r ∈ l, Fits space.allocUnit 4294967296 r.size) :
    bucket space i l = l.filter fun r => r.size = i * space.allocUnit := by
  by_cases default : f = 0
  · rw [Shaped, if_pos default] at shaped
    omega
  rw [Shaped, if_neg default] at shaped
  obtain ⟨k, four, unit, shift, hints, -⟩ := shaped
  have some_unit : 0 < 2 ^ k := Nat.pow_pos (by omega)
  apply List.filter_congr
  intro r mem
  obtain ⟨-, ⟨m, size⟩, small⟩ := fits default r mem
  rw [unit] at size
  rw [hints] at below
  apply decide_eq_decide.mpr
  rw [collectable_hash shift four hints small, unit, size, Nat.mul_div_cancel_left _ some_unit,
    Nat.mul_comm i, Nat.mul_right_inj (by omega)]
  push_cast
  omega

/-- The entries with the last index are those of `alloc_max` or more. -/
theorem bucket_last {grain limit : ℕ} (measured : Measured space grain limit)
    (fits : ∀ r ∈ l, Fits grain limit r.size) :
    bucket space space.numHints l = l.filter fun r => space.allocMax ≤ r.size := by
  apply List.filter_congr
  intro r mem
  congr 1
  exact propext (measured.graded.last (fits r mem))

theorem SameTable.shaped {space' : FreeSpace} {f : ℕ} (same : SameTable space space')
    (shaped : Shaped space f) : Shaped space' f := by
  unfold Shaped at shaped ⊢
  rw [same.allocUnit, same.allocMax, same.hashShift, same.numHints]
  exact shaped

end Shapes

end Darwin.Kern.Zalloc
