import Mathlib

/-!
# Bitmaps stored in machine words

A bitmap is a memory of `w`-bit words.  Bit `b` lives in word `b / w`, and bits are numbered from the
most significant bit of a word down, so a walk over increasing bit numbers shifts a one-bit mask to
the right.  The file describes updates of a word by the bits they change, and counts the clear bits
below a bound.

## Main definitions

* `bit`: the value of one bit
* `WritesRange`, `SetsRange`, `ClearsRange`: an update of exactly one range of bits
* `clearCount`: the number of clear bits below a bound
-/

namespace Darwin.WordBitmap

variable {w : ℕ}

/-- Bit `b` of a memory of words, counted from the most significant bit of word zero. -/
def bit (words : ℕ → BitVec w) (b : ℕ) : Bool :=
  (words (b / w)).getMsbD (b % w)

/-- An update gives `value` to the bits of `[start, start + count)` and changes no other bit. -/
def WritesRange (value : Bool) (words words' : ℕ → BitVec w) (start count : ℕ) : Prop :=
  ∀ b, bit words' b = if start ≤ b ∧ b < start + count then value else bit words b

/-- An update sets the bits of `[start, start + count)` and changes no other bit. -/
abbrev SetsRange (words words' : ℕ → BitVec w) (start count : ℕ) : Prop :=
  WritesRange true words words' start count

/-- An update clears the bits of `[start, start + count)` and changes no other bit. -/
abbrev ClearsRange (words words' : ℕ → BitVec w) (start count : ℕ) : Prop :=
  WritesRange false words words' start count

/-! ## One word -/

section Word

theorem bit_update (words : ℕ → BitVec w) (i : ℕ) (x : BitVec w) (b : ℕ) :
    bit (Function.update words i x) b =
      if b / w = i then x.getMsbD (b % w) else bit words b := by
  unfold bit
  by_cases here : b / w = i
  · rw [if_pos here, here, Function.update_self]
  · rw [if_neg here, Function.update_of_ne here]

/-- The one-bit mask that selects bit `k` of a word, as obtained by shifting the high bit. -/
theorem getMsbD_highBit_shift (positive : 0 < w) {k : ℕ} (inside : k < w) (i : ℕ) :
    (BitVec.twoPow w (w - 1) >>> k).getMsbD i = decide (i = k) := by
  by_cases bound : i < w
  · rw [BitVec.getMsbD_eq_getLsbD, BitVec.getLsbD_ushiftRight, BitVec.getLsbD_twoPow]
    by_cases same : i = k
    · simp [same, positive]
      omega
    · have index : ¬ w - 1 = k + (w - 1 - i) := by omega
      simp [same, index]
  · have differ : i ≠ k := by omega
    simp [BitVec.getMsbD_of_ge _ _ (not_lt.mp bound), differ]

/-- A word that meets a mask in nothing has the selected bit clear. -/
theorem and_highBit_shift_eq_zero (positive : 0 < w) {k : ℕ} (inside : k < w) (x : BitVec w) :
    x &&& (BitVec.twoPow w (w - 1) >>> k) = 0#w ↔ x.getMsbD k = false := by
  constructor
  · intro empty
    have selected : (x &&& (BitVec.twoPow w (w - 1) >>> k)).getMsbD k = false := by
      rw [empty, BitVec.getMsbD_zero]
    simpa [BitVec.getMsbD_and, getMsbD_highBit_shift positive inside] using selected
  · intro clear
    apply BitVec.eq_of_getMsbD_eq
    intro i _
    by_cases same : i = k
    · simp [BitVec.getMsbD_and, same, clear]
    · simp [BitVec.getMsbD_and, getMsbD_highBit_shift positive inside, same]

/-- Writing the bits `[low, low + count)` of one word writes that range of the bitmap. -/
theorem writesRange_update (value : Bool) (words : ℕ → BitVec w) (i low count : ℕ) (x : BitVec w)
    (fits : low + count ≤ w)
    (written : ∀ k < w, x.getMsbD k =
      if low ≤ k ∧ k < low + count then value else (words i).getMsbD k) :
    WritesRange value words (Function.update words i x) (i * w + low) count := by
  intro b
  rw [bit_update]
  rcases Nat.eq_zero_or_pos w with rfl | positive
  · have none : ¬ (i * 0 + low ≤ b ∧ b < i * 0 + low + count) := by omega
    rw [if_neg none]
    simp [bit]
  have inside := Nat.mod_lt b positive
  have split := Nat.div_add_mod b w
  by_cases here : b / w = i
  · rw [if_pos here, written _ inside, bit, here]
    rw [here, mul_comm] at split
    have same : (low ≤ b % w ∧ b % w < low + count) ↔
        (i * w + low ≤ b ∧ b < i * w + low + count) := by omega
    simp only [same]
  · have outside : ¬ (i * w + low ≤ b ∧ b < i * w + low + count) := by
      rintro ⟨lower, upper⟩
      apply here
      apply Nat.div_eq_of_lt_le
      · omega
      · rw [Nat.succ_mul]
        omega
    rw [if_neg here, if_neg outside]

end Word

/-! ## Composing updates -/

section Compose

variable {value : Bool} {words words' words'' : ℕ → BitVec w} {start count more : ℕ}

theorem WritesRange.refl (value : Bool) (words : ℕ → BitVec w) (start : ℕ) :
    WritesRange value words words start 0 := by
  intro b
  rw [if_neg (by omega)]

/-- Two updates of adjacent ranges are one update of their union. -/
theorem WritesRange.trans (first : WritesRange value words words' start count)
    (second : WritesRange value words' words'' (start + count) more) :
    WritesRange value words words'' start (count + more) := by
  intro b
  rw [second b, first b]
  by_cases low : start ≤ b ∧ b < start + count
  · rw [if_neg (by omega), if_pos low, if_pos (by omega)]
  · by_cases high : start + count ≤ b ∧ b < start + count + more
    · rw [if_pos high, if_pos (by omega)]
    · rw [if_neg high, if_neg low, if_neg (by omega)]

variable (writes : WritesRange value words words' start count)

include writes

theorem WritesRange.bit_of_mem {b : ℕ} (lower : start ≤ b) (upper : b < start + count) :
    bit words' b = value := by
  rw [writes b, if_pos ⟨lower, upper⟩]

theorem WritesRange.bit_of_notMem {b : ℕ} (outside : ¬ (start ≤ b ∧ b < start + count)) :
    bit words' b = bit words b := by
  rw [writes b, if_neg outside]

end Compose

/-! ## Counting the set bits of a word -/

section Ones

/-- Subtracting one and masking clears exactly the least significant set bit of a number. -/
theorem testBit_and_sub_one (n : ℕ) (positive : 0 < n) :
    ∃ k, n.testBit k = true ∧
      ∀ i, (n &&& (n - 1)).testBit i = (n.testBit i && decide (i ≠ k)) := by
  induction n using Nat.strong_induction_on with
  | _ n ih =>
    rcases Nat.mod_two_eq_zero_or_one n with even | odd
    · obtain ⟨k, found, others⟩ := ih (n / 2) (by omega) (by omega)
      have half : (n - 1) / 2 = n / 2 - 1 := by omega
      refine ⟨k + 1, by rw [Nat.testBit_succ, found], fun i => ?_⟩
      cases i with
      | zero =>
        simp [Nat.testBit_zero, even]
      | succ i =>
        have step := others i
        rw [Nat.testBit_and] at step ⊢
        rw [Nat.testBit_succ, Nat.testBit_succ, half, step]
        simp
    · refine ⟨0, by simp [Nat.testBit_zero, odd], fun i => ?_⟩
      cases i with
      | zero =>
        have low : (n - 1) % 2 = 0 := by omega
        simp [Nat.testBit_zero, odd, low]
      | succ i =>
        have half : (n - 1) / 2 = n / 2 := by omega
        rw [Nat.testBit_and, Nat.testBit_succ, Nat.testBit_succ, half]
        simp

/-- The positions of the set bits of a word. -/
def ones (x : BitVec w) : Finset ℕ :=
  {i ∈ Finset.range w | x.getMsbD i = true}

@[simp] theorem mem_ones {x : BitVec w} {i : ℕ} : i ∈ ones x ↔ x.getMsbD i = true := by
  constructor
  · exact fun mem => (Finset.mem_filter.mp mem).2
  intro set
  have inside : i < w := by
    by_contra outside
    rw [BitVec.getMsbD_of_ge _ _ (not_lt.mp outside)] at set
    cases set
  exact Finset.mem_filter.mpr ⟨Finset.mem_range.mpr inside, set⟩

/-- Clearing the least significant set bit removes one position. -/
theorem card_ones_and_sub_one {x : BitVec w} (nonzero : x ≠ 0#w) :
    (ones x).card = 1 + (ones (x &&& (x - 1#w))).card := by
  have positive : 0 < x.toNat := by
    rw [Nat.pos_iff_ne_zero]
    exact fun zero => nonzero (BitVec.eq_of_toNat_eq zero)
  have pred : (x - 1#w).toNat = x.toNat - 1 := by
    have width : w ≠ 0 := by
      rintro rfl
      exact nonzero (BitVec.of_length_zero)
    rw [BitVec.toNat_sub, BitVec.toNat_one (by omega)]
    have sum : 2 ^ w - 1 + x.toNat = x.toNat - 1 + 2 ^ w := by omega
    rw [sum, Nat.add_mod_right, Nat.mod_eq_of_lt (by omega)]
  obtain ⟨k, found, others⟩ := testBit_and_sub_one x.toNat positive
  have inside : k < w := by
    by_contra outside
    have high := Nat.testBit_lt_two_pow (lt_of_lt_of_le x.isLt
      (Nat.pow_le_pow_right (by decide) (not_lt.mp outside)))
    rw [found] at high
    cases high
  have cleared : ones x = insert (w - 1 - k) (ones (x &&& (x - 1#w))) := by
    ext i
    rw [Finset.mem_insert, mem_ones, mem_ones]
    by_cases small : i < w
    · have lsb : ∀ y : BitVec w, y.getMsbD i = y.toNat.testBit (w - 1 - i) := by
        intro y
        rw [BitVec.getMsbD_eq_getLsbD, BitVec.getLsbD]
        simp [small]
      rw [lsb, lsb, BitVec.toNat_and, pred, others]
      by_cases same : i = w - 1 - k
      · have index : w - 1 - i = k := by omega
        rw [index, found]
        simp [same]
      · have index : w - 1 - i ≠ k := by omega
        simp [same, index]
    · have outside := not_lt.mp small
      rw [BitVec.getMsbD_of_ge _ _ outside, BitVec.getMsbD_of_ge _ _ outside]
      simp
      omega
  have absent : w - 1 - k ∉ ones (x &&& (x - 1#w)) := by
    rw [mem_ones, BitVec.getMsbD_eq_getLsbD, BitVec.getLsbD, BitVec.toNat_and, pred, others]
    have index : w - 1 - (w - 1 - k) = k := by omega
    simp [index]
  rw [cleared, Finset.card_insert_of_notMem absent, add_comm]

/-- The set bits among the first `count + 1` bits of a word: the high bit and the set bits among the
first `count` bits of the word shifted left. -/
theorem card_filter_shiftLeft (x : BitVec w) (count : ℕ) (inside : count < w) :
    {i ∈ Finset.range (count + 1) | x.getMsbD i = true}.card =
      (if x.getMsbD 0 = true then 1 else 0) +
        {i ∈ Finset.range count | (x <<< 1).getMsbD i = true}.card := by
  rw [Finset.card_filter, Finset.card_filter, Finset.sum_range_succ', add_comm]
  congr 1
  refine Finset.sum_congr rfl fun i mem => ?_
  rw [BitVec.getMsbD_shiftLeft, add_comm]

end Ones

/-! ## Counting clear bits -/

section Count

/-- The clear bits below a bound. -/
def clearBits (words : ℕ → BitVec w) (bound : ℕ) : Finset ℕ :=
  {b ∈ Finset.range bound | bit words b = false}

/-- The number of clear bits below a bound. -/
def clearCount (words : ℕ → BitVec w) (bound : ℕ) : ℕ :=
  (clearBits words bound).card

@[simp] theorem mem_clearBits {words : ℕ → BitVec w} {bound b : ℕ} :
    b ∈ clearBits words bound ↔ b < bound ∧ bit words b = false := by
  simp [clearBits]

variable {words words' : ℕ → BitVec w} {start count bound : ℕ}

private theorem range_card (start count : ℕ) :
    (Finset.Ico start (start + count)).card = count := by
  rw [Nat.card_Ico]
  omega

/-- Setting a range of clear bits lowers the count of clear bits by the length of the range. -/
theorem SetsRange.clearCount_add (sets : SetsRange words words' start count)
    (inside : start + count ≤ bound)
    (clear : ∀ b, start ≤ b → b < start + count → bit words b = false) :
    clearCount words' bound + count = clearCount words bound := by
  have split : clearBits words bound =
      clearBits words' bound ∪ Finset.Ico start (start + count) := by
    ext b
    simp only [mem_clearBits, Finset.mem_union, Finset.mem_Ico]
    by_cases mem : start ≤ b ∧ b < start + count
    · have free := clear b mem.1 mem.2
      exact ⟨fun _ => .inr mem, fun _ => ⟨by omega, free⟩⟩
    · rw [sets.bit_of_notMem mem]
      exact ⟨.inl, fun split => split.resolve_right mem⟩
  have apart : Disjoint (clearBits words' bound) (Finset.Ico start (start + count)) := by
    rw [Finset.disjoint_left]
    intro b free mem
    rw [Finset.mem_Ico] at mem
    rw [mem_clearBits, sets.bit_of_mem mem.1 mem.2] at free
    exact Bool.noConfusion free.2
  unfold clearCount
  rw [split, Finset.card_union_of_disjoint apart, range_card]

/-- Clearing a range of set bits raises the count of clear bits by the length of the range. -/
theorem ClearsRange.clearCount_eq (clears : ClearsRange words words' start count)
    (inside : start + count ≤ bound)
    (set : ∀ b, start ≤ b → b < start + count → bit words b = true) :
    clearCount words' bound = clearCount words bound + count := by
  have sets : SetsRange words' words start count := by
    intro b
    by_cases mem : start ≤ b ∧ b < start + count
    · rw [if_pos mem, set b mem.1 mem.2]
    · rw [if_neg mem, clears.bit_of_notMem mem]
  exact (sets.clearCount_add inside fun _ lower upper => clears.bit_of_mem lower upper).symm

/-- The count over a longer prefix adds one for each further clear bit. -/
theorem clearCount_succ (words : ℕ → BitVec w) (bound : ℕ) :
    clearCount words (bound + 1) =
      clearCount words bound + if bit words bound = false then 1 else 0 := by
  unfold clearCount clearBits
  rw [Finset.range_add_one, Finset.filter_insert]
  by_cases clear : bit words bound = false
  · rw [if_pos clear, if_pos clear, Finset.card_insert_of_notMem (by simp)]
  · rw [if_neg clear, if_neg clear, add_zero]

/-- The clear bits of the first `count` bits of word `q`, added to those before the word. -/
theorem clearCount_word (words : ℕ → BitVec w) (q count : ℕ) (inside : count ≤ w) :
    clearCount words (q * w + count) =
      clearCount words (q * w) + {i ∈ Finset.range count | (~~~(words q)).getMsbD i = true}.card := by
  induction count with
  | zero => simp
  | succ count ih =>
    have place : bit words (q * w + count) = (words q).getMsbD count := by
      have quotient : (q * w + count) / w = q := by
        rw [add_comm, Nat.add_mul_div_right _ _ (by omega), Nat.div_eq_of_lt (by omega),
          zero_add]
      have remainder : (q * w + count) % w = count := by
        rw [add_comm, Nat.add_mul_mod_self_right, Nat.mod_eq_of_lt (by omega)]
      rw [bit, quotient, remainder]
    have inverted : (~~~(words q)).getMsbD count = !(words q).getMsbD count := by
      rw [BitVec.getMsbD_not]
      simp [show count < w by omega]
    rw [← add_assoc, clearCount_succ, ih (by omega), place, Finset.range_add_one,
      Finset.filter_insert, inverted]
    cases (words q).getMsbD count
    · simp [add_assoc]
    · simp

@[simp] theorem clearCount_zero (words : ℕ → BitVec w) : clearCount words 0 = 0 := rfl

theorem clearCount_le (words : ℕ → BitVec w) (bound : ℕ) : clearCount words bound ≤ bound := by
  calc
    clearCount words bound ≤ (Finset.range bound).card := Finset.card_filter_le _ _
    _ = bound := Finset.card_range bound

end Count

end Darwin.WordBitmap
