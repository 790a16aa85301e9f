import Mathlib.Data.List.GetD
import Mathlib.Data.List.Nodup
import Darwin.Netinfo.Server.Object

/-!
# The order of the search trees

`ranstrcmp` compares strings by a permutation of the bytes, so that trees filled in alphabetical
order do not degenerate.  It is the lexicographic order of the strings with their final zero, each
byte replaced by its place in the permutation.

## Main results

* `ranstrcmp_eq_compare` - what the comparison is
* instances of `Std.TransCmp` and `Std.LawfulEqCmp` - it is a total order
-/

namespace Darwin.Netinfo.Index

/-- `randtable`. -/
def randtable : List ℕ := [
  0xe3, 0xe2, 0x6b, 0x9c, 0x9f, 0x32, 0x76, 0x2b, 0x04, 0x2e, 0x02, 0x9b, 0x1e, 0x90, 0xff, 0xaf,
  0x55, 0x8a, 0x2d, 0xe6, 0xb7, 0x81, 0x22, 0x4c, 0x52, 0xa3, 0x65, 0xab, 0x73, 0x5e, 0x6f, 0x2f,
  0x7d, 0x9d, 0x58, 0xce, 0x99, 0x88, 0x85, 0x31, 0x66, 0x68, 0x91, 0xee, 0x43, 0xd2, 0x3e, 0x33,
  0x5c, 0xdf, 0x21, 0x40, 0x06, 0xb6, 0x80, 0x89, 0xf1, 0x16, 0x0a, 0x77, 0x00, 0x17, 0x1b, 0x82,
  0x28, 0xbd, 0x26, 0x61, 0x9a, 0xfe, 0x84, 0xfc, 0x45, 0x94, 0xe7, 0x53, 0x07, 0x7a, 0xa6, 0xc3,
  0xa0, 0x75, 0xd5, 0xba, 0x8d, 0x7f, 0xca, 0xc5, 0xc8, 0xe4, 0x3b, 0xd0, 0x30, 0xe8, 0xfb, 0x87,
  0xa5, 0xa7, 0x3d, 0x46, 0x51, 0x95, 0xf7, 0x09, 0xb3, 0x63, 0x20, 0x44, 0x71, 0x0d, 0x8f, 0x4d,
  0x2c, 0xec, 0xda, 0x57, 0x7c, 0xac, 0x8b, 0x6c, 0x14, 0x37, 0x34, 0x92, 0x49, 0x10, 0xdd, 0xe9,
  0x83, 0x0c, 0x67, 0xf0, 0xa1, 0x48, 0x97, 0x27, 0xe1, 0xe0, 0xa9, 0x9e, 0x7e, 0x6e, 0xb4, 0xf4,
  0xc0, 0xd3, 0x4f, 0x5a, 0x8c, 0xaa, 0xdc, 0x36, 0x98, 0x18, 0x42, 0x05, 0xae, 0x78, 0x60, 0x0f,
  0x64, 0x3a, 0x01, 0x1a, 0x50, 0xb1, 0x56, 0xeb, 0x15, 0xc6, 0xbe, 0xa4, 0x03, 0xe5, 0xb5, 0xd9,
  0x39, 0xcf, 0x96, 0x5f, 0x29, 0xb8, 0xef, 0x62, 0xbb, 0xc1, 0xa2, 0xde, 0xbf, 0xd6, 0xc9, 0x12,
  0xcb, 0x47, 0x5b, 0xc2, 0x6a, 0x86, 0xf3, 0x35, 0xbc, 0x4e, 0x79, 0xb9, 0xc4, 0xf2, 0x0b, 0x4a,
  0x54, 0x0e, 0x74, 0x59, 0xf8, 0x8e, 0xf9, 0x72, 0x24, 0xfd, 0xd8, 0x08, 0x1c, 0xb0, 0xf6, 0x38,
  0x19, 0x4b, 0xd7, 0xfa, 0x70, 0x5d, 0xc7, 0x69, 0xf5, 0xdb, 0x3c, 0x25, 0xd1, 0xcd, 0x3f, 0x7b,
  0xed, 0x93, 0xa8, 0xad, 0xd4, 0x1d, 0x41, 0x13, 0xb2, 0x2a, 0x11, 0x23, 0xea, 0x1f, 0x6d, 0xcc]

/-- The place of a byte.  No byte of a name is zero, which ends the string in memory; one is given a
place of its own. -/
def place (byte : UInt8) : ℕ := if byte = 0 then 256 else randtable.getD byte.toNat 0

/-- The place of the zero at the end. -/
def placeEnd : ℕ := randtable.getD 0 0

/-- `ranstrcmp`. -/
def ranstrcmp : Name → Name → Ordering
  | [], [] => .eq
  | [], b :: _ => compare placeEnd (place b)
  | a :: _, [] => compare (place a) placeEnd
  | a :: as, b :: bs => if a = b then ranstrcmp as bs else compare (place a) (place b)

/-- A name as the places of its bytes and of its end. -/
def places (name : Name) : List ℕ := name.map place ++ [placeEnd]

/-- No number occurs twice in the list, and none is the place of a bit of `seen`. -/
def distinctFrom (seen : ℕ) : List ℕ → Bool
  | [] => true
  | x :: xs => !seen.testBit x && distinctFrom (seen ||| 1 <<< x) xs

theorem distinct_of_distinctFrom {seen : ℕ} {xs : List ℕ} (distinct : distinctFrom seen xs) :
    xs.Nodup ∧ ∀ x ∈ xs, seen.testBit x = false := by
  induction xs generalizing seen with
  | nil => exact ⟨List.nodup_nil, fun x mem => absurd mem List.not_mem_nil⟩
  | cons x xs ih =>
    rw [distinctFrom, Bool.and_eq_true, Bool.not_eq_true'] at distinct
    obtain ⟨fresh, distinct⟩ := distinct
    obtain ⟨nodup, others⟩ := ih distinct
    have apart : ∀ y ∈ xs, seen.testBit y = false ∧ x ≠ y := by
      intro y mem
      have clear := others y mem
      rw [Nat.testBit_or, Bool.or_eq_false_iff, Nat.one_shiftLeft, Nat.testBit_two_pow] at clear
      exact ⟨clear.1, of_decide_eq_false clear.2⟩
    refine ⟨List.nodup_cons.mpr ⟨fun mem => (apart x mem).2 rfl, nodup⟩, ?_⟩
    intro y mem
    rcases List.mem_cons.mp mem with rfl | mem
    · exact fresh
    · exact (apart y mem).1

set_option maxRecDepth 4000 in
theorem randtable_permutes : randtable.length = 256 ∧ distinctFrom 0 randtable ∧
    ∀ x ∈ randtable, x < 256 := by
  decide +kernel

theorem nodup_randtable : randtable.Nodup := (distinct_of_distinctFrom randtable_permutes.2.1).1

theorem place_of_ne_zero {byte : UInt8} (nonzero : byte ≠ 0) :
    ∃ less : byte.toNat < randtable.length, place byte = randtable[byte.toNat] := by
  have less : byte.toNat < randtable.length := by
    rw [randtable_permutes.1]
    exact byte.toNat_lt
  refine ⟨less, ?_⟩
  rw [place, if_neg nonzero, List.getD_eq_getElem _ _ less]

theorem place_ne_placeEnd (byte : UInt8) : place byte ≠ placeEnd := by
  by_cases zero : byte = 0
  · rw [place, if_pos zero]
    decide
  obtain ⟨less, here⟩ := place_of_ne_zero zero
  have first : placeEnd = randtable[0] := rfl
  rw [here, first]
  intro same
  apply zero
  apply UInt8.toNat_inj.mp
  exact nodup_randtable.getElem_inj_iff.mp same

theorem place_injective : Function.Injective place := by
  intro a b same
  by_cases zeroA : a = 0
  · by_cases zeroB : b = 0
    · rw [zeroA, zeroB]
    · obtain ⟨less, here⟩ := place_of_ne_zero zeroB
      rw [here, place, if_pos zeroA] at same
      exact absurd same.symm (Nat.ne_of_lt (randtable_permutes.2.2 _ (List.getElem_mem less)))
  · obtain ⟨less, here⟩ := place_of_ne_zero zeroA
    by_cases zeroB : b = 0
    · rw [here, place, if_pos zeroB] at same
      exact absurd same (Nat.ne_of_lt (randtable_permutes.2.2 _ (List.getElem_mem less)))
    · obtain ⟨less', here'⟩ := place_of_ne_zero zeroB
      rw [here, here'] at same
      exact UInt8.toNat_inj.mp (nodup_randtable.getElem_inj_iff.mp same)

theorem places_injective : Function.Injective places := by
  intro as bs same
  have mapped : as.map place = bs.map place := List.append_cancel_right same
  exact place_injective.list_map mapped

/-- The comparison is that of the places, from left to right. -/
theorem ranstrcmp_eq_compare (as bs : Name) :
    ranstrcmp as bs = List.compareLex compare (places as) (places bs) := by
  induction as generalizing bs with
  | nil =>
    cases bs with
    | nil => rfl
    | cons b bs =>
      have other : compare placeEnd (place b) ≠ .eq := fun same =>
        place_ne_placeEnd b (Nat.compare_eq_eq.mp same).symm
      rw [ranstrcmp]
      change _ = List.compareLex compare (placeEnd :: []) (place b :: places bs)
      rw [List.compareLex_cons_cons]
      generalize compare placeEnd (place b) = order at *
      cases order with
      | lt => rfl
      | eq => exact absurd rfl other
      | gt => rfl
  | cons a as ih =>
    cases bs with
    | nil =>
      have other : compare (place a) placeEnd ≠ .eq := fun same =>
        place_ne_placeEnd a (Nat.compare_eq_eq.mp same)
      rw [ranstrcmp]
      change _ = List.compareLex compare (place a :: places as) (placeEnd :: [])
      rw [List.compareLex_cons_cons]
      generalize compare (place a) placeEnd = order at *
      cases order with
      | lt => rfl
      | eq => exact absurd rfl other
      | gt => rfl
    | cons b bs =>
      rw [ranstrcmp]
      change _ = List.compareLex compare (place a :: places as) (place b :: places bs)
      rw [List.compareLex_cons_cons]
      by_cases same : a = b
      · have self : compare (place b) (place b) = .eq := Std.ReflCmp.compare_self
        rw [if_pos same, same, ih, self]
        rfl
      rw [if_neg same]
      have other : compare (place a) (place b) ≠ .eq := fun equal =>
        same (place_injective (Nat.compare_eq_eq.mp equal))
      generalize compare (place a) (place b) = order at *
      cases order with
      | lt => rfl
      | eq => exact absurd rfl other
      | gt => rfl

instance : Std.TransCmp ranstrcmp where
  eq_swap {a b} := by
    rw [ranstrcmp_eq_compare, ranstrcmp_eq_compare]
    exact Std.OrientedCmp.eq_swap
  isLE_trans {a b c} ab bc := by
    rw [ranstrcmp_eq_compare] at *
    exact Std.TransCmp.isLE_trans ab bc

instance : Std.LawfulEqCmp ranstrcmp where
  compare_self {a} := by
    rw [ranstrcmp_eq_compare]
    exact Std.ReflCmp.compare_self
  eq_of_compare {a b} equal := by
    rw [ranstrcmp_eq_compare] at equal
    exact places_injective (Std.LawfulEqCmp.eq_of_compare equal)

end Darwin.Netinfo.Index
