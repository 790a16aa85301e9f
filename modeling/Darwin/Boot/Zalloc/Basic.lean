import Darwin.Lib.Ranges
import Darwin.Lib.Slice
import Mathlib.Algebra.Order.Ring.Int

/-!
# The boot allocator

A model of `libsa/zalloc.c`.  The allocator keeps two tables of `zmem` entries at the front of the
memory it is given: the blocks handed out, in the order of the calls, and the available ranges, in
order of address.  The tables are functions from indices; only the entries below the node counts are
in use.  Pointers are 32-bit numbers.  The contents of the blocks are left out.
-/

namespace Darwin.Boot.Zalloc

open Function (update)
open Darwin.Lib

/-- An entry of a table. -/
abbrev Zmem := Range

/-- The static variables of the allocator, with the two tables they point to. -/
structure State where
  zallocBase : ℕ
  zalloced : ℕ → Zmem
  zavailable : ℕ → Zmem
  availableNodes : ℕ
  allocedNodes : ℕ
  totalNodes : ℤ

/-- `ZALLOC_ADDR`. -/
def zallocAddr : ℕ := 0x54000

/-- `ZALLOC_LEN`. -/
def zallocLen : ℕ := 0x12000

/-- `ZALLOC_NODES`. -/
def zallocNodes : ℕ := 128

/-- `sizeof(zmem)`. -/
def sizeofZmem : ℕ := 8

/-- Pointer addition. -/
def addr (start offset : ℕ) : ℕ := (start + offset) % 2 ^ 32

/-- The first address past an entry, as the code computes it. -/
def zend (entry : Zmem) : ℕ := addr entry.start entry.size

/-- A number as a `short`. -/
def toShort (n : ℤ) : ℤ := Int.bmod n (2 ^ 16)

/-- `malloc_init`: the tables take the first `2 * nodes` entries of the memory. -/
def mallocInit (z : State) (start size nodes : ℕ) : State :=
  { z with
    zallocBase := start
    totalNodes := toShort nodes
    zavailable := update z.zavailable 0
      ⟨addr (addr start (sizeofZmem * nodes)) (sizeofZmem * nodes), size⟩
    availableNodes := 1
    allocedNodes := 0 }

/-! ## The tables -/

/-- `zallocate`. -/
def zallocate (z : State) (start size : ℕ) : State :=
  { z with
    zalloced := update z.zalloced z.allocedNodes ⟨start, size⟩
    allocedNodes := z.allocedNodes + 1 }

/-- The loop of `zinsert`: move the entry at `ndx + count - 1` up, then those before it. -/
def shiftUp (ndx : ℕ) : (count : ℕ) → (ℕ → Zmem) → ℕ → Zmem
  | 0, zp => zp
  | count + 1, zp => shiftUp ndx count (update zp (ndx + count + 1) (zp (ndx + count)))

/-- `zinsert`: make room at `ndx`. -/
def zinsert (totalNodes : ℤ) (zp : ℕ → Zmem) (ndx : ℕ) : ℕ → Zmem :=
  shiftUp ndx (totalNodes - 1 - ndx).toNat zp

/-- The loop of `zdelete`: move the entry after `i` down, then those after it. -/
def shiftDown : (count i : ℕ) → (ℕ → Zmem) → ℕ → Zmem
  | 0, _, zp => zp
  | count + 1, i, zp => shiftDown count (i + 1) (update zp i (zp (i + 1)))

/-- `zdelete`: close the gap at `ndx`. -/
def zdelete (totalNodes : ℤ) (zp : ℕ → Zmem) (ndx : ℕ) : ℕ → Zmem :=
  shiftDown (totalNodes - 1 - ndx).toNat ndx zp

/-- The loop of `zcoalesce`: join the first two neighbours that touch. -/
def zcoalesceFrom : (count i : ℕ) → State → State
  | 0, _, z => z
  | count + 1, i, z =>
    if zend (z.zavailable i) = (z.zavailable (i + 1)).start then
      { z with
        zavailable := zdelete z.totalNodes (update z.zavailable i
          ⟨(z.zavailable i).start, (z.zavailable i).size + (z.zavailable (i + 1)).size⟩) (i + 1)
        availableNodes := z.availableNodes - 1 }
    else zcoalesceFrom count (i + 1) z

/-- `zcoalesce`. -/
def zcoalesce (z : State) : State := zcoalesceFrom (z.availableNodes - 1) 0 z

/-! ## The calls -/

/-- The rounding of a request to whole 16 bytes, on 32-bit numbers. -/
def roundSize (size : ℕ) : ℕ := (size + 15) % 2 ^ 32 / 16 * 16

/-- The loop of `malloc`: allocate from the first range that is large enough. -/
def mallocFrom (size : ℕ) : (count i : ℕ) → State → ℕ × State
  | 0, _, z => (0, z)
  | count + 1, i, z =>
    let start := (z.zavailable i).start
    if (z.zavailable i).size = size then
      let z := zallocate z start size
      (start, { z with
        zavailable := zdelete z.totalNodes z.zavailable i
        availableNodes := z.availableNodes - 1 })
    else if (z.zavailable i).size > size then
      let z := zallocate z start size
      (start, { z with
        zavailable := update z.zavailable i ⟨addr start size, (z.zavailable i).size - size⟩ })
    else mallocFrom size count (i + 1) z

/-- `malloc`: the address of the block, or zero. -/
def malloc (z : State) (size : ℕ) : ℕ × State :=
  let z := if z.zallocBase = 0 then mallocInit z zallocAddr zallocLen zallocNodes else z
  mallocFrom (roundSize size) z.availableNodes 0 z

/-- The first loop of `free`: take the block at `start` out of the table. -/
def takeBlock (start : ℕ) : (count i : ℕ) → State → Option (ℕ × State)
  | 0, _, _ => none
  | count + 1, i, z =>
    if (z.zalloced i).start = start then
      some ((z.zalloced i).size, { z with
        zalloced := zdelete z.totalNodes z.zalloced i
        allocedNodes := z.allocedNodes - 1 })
    else takeBlock start count (i + 1) z

/-- The second loop of `free`: merge the range into a neighbour or put it in its place. -/
def freeFrom (start tsize : ℕ) : (count i : ℕ) → State → State
  | 0, i, z =>
    zcoalesce { z with
      zavailable := update z.zavailable i ⟨start, tsize⟩
      availableNodes := z.availableNodes + 1 }
  | count + 1, i, z =>
    if addr start tsize = (z.zavailable i).start then
      zcoalesce { z with
        zavailable := update z.zavailable i ⟨start, (z.zavailable i).size + tsize⟩ }
    else if 0 < i ∧ zend (z.zavailable (i - 1)) = start then
      zcoalesce { z with
        zavailable := update z.zavailable (i - 1)
          ⟨(z.zavailable (i - 1)).start, (z.zavailable (i - 1)).size + tsize⟩ }
    else if addr start tsize < (z.zavailable i).start then
      { z with
        zavailable := update (zinsert z.totalNodes z.zavailable i) i ⟨start, tsize⟩
        availableNodes := z.availableNodes + 1 }
    else freeFrom start tsize count (i + 1) z

/-- `free`. -/
def free (z : State) (pointer : ℕ) : State :=
  if pointer = 0 then z
  else
    match takeBlock pointer z.allocedNodes 0 z with
    | none => z
    | some (tsize, z) => freeFrom pointer tsize z.availableNodes 0 z

end Darwin.Boot.Zalloc
