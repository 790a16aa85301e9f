import Mathlib.Tactic.Common

/-!
# Fields of a machine word

A word packs several fields, each read through a mask.  Writing the bits of one mask leaves the
fields of every disjoint mask alone.
-/

namespace Darwin.BitField

variable {w : ℕ} {bits written mask : BitVec w}

/-- Setting bits outside a mask does not change the field. -/
theorem and_or_of_disjoint (disjoint : written &&& mask = 0#w) :
    (bits ||| written) &&& mask = bits &&& mask := by
  ext i mem
  have apart := congrArg (fun x => x.getLsbD i) disjoint
  simp only [BitVec.getLsbD_and, BitVec.getLsbD_zero] at apart
  simp only [BitVec.getElem_and, BitVec.getElem_or]
  rw [BitVec.getLsbD_eq_getElem mem, BitVec.getLsbD_eq_getElem mem] at apart
  revert apart
  cases bits[i] <;> cases mask[i] <;> cases written[i] <;> simp

/-- Setting bits inside a mask sets them in the field. -/
theorem and_or_of_subset (subset : written &&& mask = written) :
    (bits ||| written) &&& mask = (bits &&& mask) ||| written := by
  ext i mem
  have within := congrArg (fun x => x.getLsbD i) subset
  simp only [BitVec.getLsbD_and] at within
  simp only [BitVec.getElem_and, BitVec.getElem_or]
  rw [BitVec.getLsbD_eq_getElem mem, BitVec.getLsbD_eq_getElem mem] at within
  revert within
  cases bits[i] <;> cases mask[i] <;> cases written[i] <;> simp

/-- Clearing bits outside a mask does not change the field. -/
theorem and_not_and_of_disjoint (disjoint : written &&& mask = 0#w) :
    (bits &&& ~~~written) &&& mask = bits &&& mask := by
  ext i mem
  have apart := congrArg (fun x => x.getLsbD i) disjoint
  simp only [BitVec.getLsbD_and, BitVec.getLsbD_zero] at apart
  simp only [BitVec.getElem_and, BitVec.getElem_not]
  rw [BitVec.getLsbD_eq_getElem mem, BitVec.getLsbD_eq_getElem mem] at apart
  revert apart
  cases bits[i] <;> cases mask[i] <;> cases written[i] <;> simp

/-- The field of a mask, read through another mask. -/
theorem and_and_mask (bits first second : BitVec w) :
    (bits &&& first) &&& second = bits &&& (first &&& second) :=
  BitVec.and_assoc bits first second

/-- A word whose bits all lie in a mask has empty fields elsewhere. -/
theorem and_eq_zero_of_subset {mask' : BitVec w} (subset : bits &&& mask = bits)
    (disjoint : mask &&& mask' = 0#w) : bits &&& mask' = 0#w := by
  rw [← subset, and_and_mask, disjoint, BitVec.and_zero]

/-- A field that has a bit of one of its parts is not empty. -/
theorem and_ne_zero {part : BitVec w} (within : mask &&& part = part)
    (has : bits &&& part ≠ 0#w) : bits &&& mask ≠ 0#w := by
  intro none'
  apply has
  rw [← within, ← and_and_mask, none', BitVec.zero_and]

end Darwin.BitField
