import Mathlib.Data.List.Basic

/-!
# Writes into a file

A file is the list of its bytes.  A write at an offset replaces the bytes there and extends the file
if it ends before; a hole between the old end and the offset is filled.  The lemmas say what a later
read sees: the data written, and unchanged bytes everywhere else.
-/

namespace Darwin.Lib

open List

variable {B : Type*} {hole : B} {file data : List B} {off : ℕ}

/-- The file after `data` was written at offset `off`. -/
def writeAt (hole : B) (file : List B) (off : ℕ) (data : List B) : List B :=
  (file ++ List.replicate (off - file.length) hole).take off ++ data ++ file.drop (off + data.length)

/-- The part of the file before the write. -/
theorem length_writeAt_front :
    ((file ++ List.replicate (off - file.length) hole).take off).length = off := by
  rw [length_take, length_append, length_replicate]
  omega

theorem length_writeAt : (writeAt hole file off data).length = max file.length (off + data.length) := by
  rw [writeAt, length_append, length_append, length_writeAt_front, length_drop]
  omega

/-- A read at the offset of the write sees the data. -/
theorem drop_writeAt_self :
    (writeAt hole file off data).drop off = data ++ file.drop (off + data.length) := by
  rw [writeAt, append_assoc, drop_left' length_writeAt_front]

/-- A read past the data sees what the file held. -/
theorem drop_writeAt_after {i : ℕ} (after : off + data.length ≤ i) :
    (writeAt hole file off data).drop i = file.drop i := by
  obtain ⟨k, rfl⟩ := Nat.exists_eq_add_of_le after
  have front : ((file ++ List.replicate (off - file.length) hole).take off ++ data).length =
      off + data.length := by
    rw [length_append, length_writeAt_front]
  rw [writeAt, ← drop_drop, drop_left' front, drop_drop]

/-- A read before the data sees what the file held, at least up to the data. -/
theorem isPrefix_drop_writeAt {i n : ℕ} (before : i + n ≤ off) :
    (file.drop i).take n <+: (writeAt hole file off data).drop i := by
  have mem : (file.drop i).take n <+:
      ((file ++ List.replicate (off - file.length) hole).take off).drop i := by
    rw [drop_take, prefix_take_iff, drop_append]
    constructor
    · exact ( take_prefix n _).trans (prefix_append _ _)
    · rw [length_take]
      omega
  rw [writeAt, append_assoc, drop_append]
  exact mem.trans (prefix_append _ _)

/-- Writing the same data again changes nothing. -/
theorem writeAt_writeAt :
    writeAt hole (writeAt hole file off data) off data = writeAt hole file off data := by
  have long : off - (writeAt hole file off data).length = 0 := by
    rw [length_writeAt]
    omega
  have again : ((writeAt hole file off data) ++ List.replicate 0 hole).take off =
      (file ++ List.replicate (off - file.length) hole).take off := by
    rw [replicate_zero, append_nil, writeAt, append_assoc, take_left' length_writeAt_front]
  conv_lhs => rw [writeAt, long, again, drop_writeAt_after (Nat.le_refl _)]
  rw [writeAt]

/-- Appending to a prefix that was just written. -/
theorem writeAt_append (front rest : List B) :
    writeAt hole (front ++ rest) front.length data = front ++ data ++ rest.drop data.length := by
  have long : front.length - (front ++ rest).length = 0 := by
    rw [length_append]
    omega
  rw [writeAt, long, replicate_zero, append_nil, take_left', drop_append]
  · simp
  · rfl

end Darwin.Lib
