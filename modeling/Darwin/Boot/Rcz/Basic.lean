import Mathlib.Data.List.Basic
import Mathlib.Data.Nat.Bitwise

/-!
# The compressor of the boot loader

A model of `rcz_compress_mem.c` and `rcz_decompress_mem.c`.  The compressor reads 16-bit symbols and
keeps the last of them in a queue.  A symbol in the queue is sent as its index, one byte, and moves up
a quarter of its way; any other symbol is sent as it is and enters the queue at a fixed place.  The
symbols go out in groups of 32, after a word of 32 bits that says for each whether it is an index.

Numbers are 32-bit where the C code has `unsigned int`; a shift or a sum that could wrap is reduced.
The queue after each symbol, the bits of the token words and the indices are recorded as well; no code
looks at them.
-/

namespace Darwin.Boot.Rcz

/-- A sequence of bytes. -/
abbrev Bytes := List UInt8

/-! ## The queue -/

/-- `QLEN`. -/
def qlen : ℕ := 255

/-- `F1`. -/
def f1 : ℕ := 12

/-- `F2`. -/
def f2 : ℕ := 12

/-- `ABOVE`. -/
def above : ℕ := (f2 * qlen) >>> 4

/-- `METHOD_17_JUL_95`. -/
def method17Jul95 : ℕ := 666

/-- The array `que`, of `QLEN` entries. -/
abbrev Queue := List ℕ

/-- The queue at the start of both routines. -/
def Queue.start : Queue := List.range qlen

/-- The loops that move the entries down by one: from `j` on, down to the place `lo`. -/
def shiftDown (lo : ℕ) : ℕ → Queue → Queue
  | 0, que => que
  | j + 1, que =>
    if j + 1 > lo then shiftDown lo j (que.set (j + 1) (que.getD j 0)) else que

/-- Process the queue for a match. -/
def Queue.moveUp (que : Queue) (jmatch : ℕ) : Queue :=
  let jabove := (f1 * jmatch) >>> 4
  (shiftDown jabove jmatch que).set jabove (que.getD jmatch 0)

/-- Process the queue for an unmatch. -/
def Queue.enter (que : Queue) (word : ℕ) : Queue :=
  (shiftDown above (qlen - 1) que).set above word

/-- The search for a symbol: the first index that holds it. -/
def Queue.find (que : Queue) (word : ℕ) : Option ℕ :=
  (List.range qlen).find? fun j => que.getD j 0 = word

/-! ## The compressor -/

/-- The four bytes of a word, the most significant first. -/
def putLong (n : ℕ) : Bytes :=
  [UInt8.ofNat (n >>> 24), UInt8.ofNat (n >>> 16), UInt8.ofNat (n >>> 8), UInt8.ofNat n]

/-- The variables of `rcz_compress_memory`; `tokenct` is the length of `data`. -/
structure Compressor where
  que : Queue
  word : ℕ
  token : ℕ
  data : List ℕ
  out : Bytes
  queues : List Queue
  tokens : List Bool
  indices : List ℕ

/-- The loop that unloads the data, from the place `j` on. -/
def unloadData (token : ℕ) : ℕ → List ℕ → Bytes
  | _, [] => []
  | j, d :: data =>
    (if token.testBit (31 - j) then [UInt8.ofNat d] else [UInt8.ofNat (d >>> 8), UInt8.ofNat d]) ++
      unloadData token (j + 1) data

/-- Unload a token word and the data. -/
def Compressor.unload (c : Compressor) (token : ℕ) : Compressor :=
  { c with out := c.out ++ putLong token ++ unloadData token 0 c.data, token := 0, data := [] }

/-- Take a 16-bit symbol into the group. -/
def Compressor.take (c : Compressor) (word : ℕ) : Compressor :=
  match Queue.find c.que word with
  | some jmatch =>
    { c with
      word := word, token := (2 * c.token + 1) % 2 ^ 32, data := c.data ++ [jmatch]
      que := Queue.moveUp c.que jmatch, queues := c.queues ++ [Queue.moveUp c.que jmatch]
      tokens := c.tokens ++ [true], indices := c.indices ++ [jmatch] }
  | none =>
    { c with
      word := word, token := 2 * c.token % 2 ^ 32, data := c.data ++ [word]
      que := Queue.enter c.que word, queues := c.queues ++ [Queue.enter c.que word]
      tokens := c.tokens ++ [false] }

/-- The processing of a 16-bit symbol. -/
def Compressor.symbol (c : Compressor) (word : ℕ) : Compressor :=
  let c := c.take word
  if c.data.length = 32 then c.unload c.token else c

/-- A round of the loop over the bytes. -/
def Compressor.byte (c : Compressor) (ct : ℕ) (b : UInt8) : Compressor :=
  let word := (c.word * 2 ^ 8 + b.toNat) % 2 ^ 32
  if ct % 2 = 1 then c.symbol (word % 2 ^ 16) else { c with word := word }

/-- The loop over the bytes, from the byte `ct` on. -/
def Compressor.bytes : ℕ → Bytes → Compressor → Compressor
  | _, [], c => c
  | ct, b :: input, c => Compressor.bytes (ct + 1) input (c.byte ct b)

/-- The state before the loop. -/
def Compressor.start (inbytes : ℕ) : Compressor where
  que := .start
  word := 0
  token := 0
  data := []
  out := putLong method17Jul95 ++ putLong inbytes
  queues := []
  tokens := []
  indices := []

/-- `rcz_compress_memory`, with what it has done when it returns. -/
def rczCompressMemory (input : Bytes) : Compressor :=
  let c := Compressor.bytes 0 input (.start input.length)
  let c := if c.data.length > 0 then c.unload (c.token <<< (32 - c.data.length) % 2 ^ 32) else c
  if input.length % 2 = 1 then { c with out := c.out ++ [UInt8.ofNat c.word] } else c

/-- The count that `rcz_compress_memory` returns. -/
def Compressor.emitted (c : Compressor) : ℕ := c.out.length % 2 ^ 32

/-! ## The decompressor -/

/-- `*in++`.  The routine does not know where its input ends; past the end it has no meaning. -/
def getByte : Bytes → Option (ℕ × Bytes)
  | [] => none
  | b :: input => some (b.toNat, input)

/-- Four bytes, the most significant first. -/
def getLong : Bytes → Option (ℕ × Bytes)
  | a :: b :: c :: d :: input =>
    some (((a.toNat * 2 ^ 8 + b.toNat) * 2 ^ 8 + c.toNat) * 2 ^ 8 + d.toNat, input)
  | _ => none

/-- The variables of `rcz_decompress_memory`. -/
structure Decompressor where
  que : Queue
  input : Bytes
  out : Bytes
  queues : List Queue
  tokens : List Bool

/-- A round of the loop over a group; `token` is the bit of this symbol. -/
def Decompressor.symbol (d : Decompressor) (token : Bool) : Option Decompressor := do
  let (byte, input) ← getByte d.input
  let (word, que, input) ←
    if token then
      some (d.que.getD byte 0, Queue.moveUp d.que byte, input)
    else do
      let (low, input) ← getByte input
      some (byte * 2 ^ 8 + low, Queue.enter d.que (byte * 2 ^ 8 + low), input)
  some
    { que := que, input := input, out := d.out ++ [UInt8.ofNat (word >>> 8), UInt8.ofNat word]
      queues := d.queues ++ [que], tokens := d.tokens ++ [token] }

/-- The loop over a group, with `left` symbols to go. -/
def Decompressor.group (evenLength token : ℕ) : ℕ → Decompressor → Option Decompressor
  | 0, d => some d
  | left + 1, d => do
    let d ← d.symbol (token.testBit left)
    if d.out.length ≥ evenLength then some d else Decompressor.group evenLength token left d

/-- The loop over the groups.  A group has at least two bytes, so that `evenLength` rounds are
enough. -/
def Decompressor.groups (evenLength : ℕ) : ℕ → Decompressor → Option Decompressor
  | 0, d => if d.out.length < evenLength then none else some d
  | rounds + 1, d =>
    if d.out.length < evenLength then do
      let (token, input) ← getLong d.input
      let d ← Decompressor.group evenLength token 32 { d with input := input }
      Decompressor.groups evenLength rounds d
    else some d

/-- `rcz_decompress_memory`: the count it returns, and what it has done. -/
def rczDecompressMemory (input : Bytes) : Option (ℕ × Decompressor) := do
  let (version, input) ← getLong input
  if version ≠ method17Jul95 then
    some (2 ^ 32 - 1, ⟨.start, input, [], [], []⟩)
  else do
    let (length, input) ← getLong input
    let evenLength := 2 * (length / 2)
    let d ← Decompressor.groups evenLength evenLength ⟨.start, input, [], [], []⟩
    if evenLength ≠ length then do
      let (byte, input) ← getByte d.input
      some (length, { d with out := d.out ++ [UInt8.ofNat byte], input := input })
    else some (length, d)

end Darwin.Boot.Rcz
