import Darwin.Lib.FileBytes
import Mathlib.Algebra.Order.Ring.Int

/-!
# The transaction file of a NetInfo database

A model of the storage layer `ni_file.c`.  A database is a collection file of fixed-size blocks, one
for each directory, an extension file for each directory whose encoding does not fit in a block, and
the file `Transaction`, a redo log for one object.  `transact` writes the object to the log between
two copies of a random code, then stores it, then zeroes the first code; `transact_cleanup` stores
the object again at startup if the two codes match.

What the process does to the disk is a list of writes, each of which the system carries out whole;
a crash cuts the list short.  Bytes that stdio has not written yet are in none of the writes.
-/

namespace Darwin.Netinfo

open Darwin.Lib

/-- The contents of a file. -/
abbrev Bytes := List UInt8

/-! ## Longs and records -/

/-- `xdr_long`: four bytes, the most significant first. -/
def encodeLong (n : ℕ) : Bytes :=
  [UInt8.ofNat (n / 2 ^ 24), UInt8.ofNat (n / 2 ^ 16), UInt8.ofNat (n / 2 ^ 8), UInt8.ofNat n]

/-- `xdr_long` from a stream: the number and the rest of the stream. -/
def decodeLong : Bytes → Option (ℕ × Bytes)
  | a :: b :: c :: d :: rest =>
    some (a.toNat * 2 ^ 24 + b.toNat * 2 ^ 16 + c.toNat * 2 ^ 8 + d.toNat, rest)
  | _ => none

/-- The zero bytes that `xdr_opaque` adds to a string of `size` bytes. -/
def padding (size : ℕ) : ℕ := (4 - size % 4) % 4

/-- `DB_FREE`, as the word that stands in an encoded object. -/
def dbFree : ℕ := 2 ^ 32 - 1

/-- The first word of a block into which `mem` was copied. -/
def firstWord (mem : Bytes) : Bytes := (mem ++ List.replicate 4 0).take 4

/-- The first three longs of a transaction. -/
def header (code id : ℕ) (mem : Bytes) : Bytes :=
  encodeLong code ++ encodeLong mem.length ++ encodeLong id

/-- What `transact` writes to the transaction file. -/
def logRecord (code id : ℕ) (mem : Bytes) : Bytes :=
  header code id mem ++ (mem ++ List.replicate (padding mem.length) 0) ++ encodeLong code

/-- The offset of the second code. -/
def tailOffset (size : ℕ) : ℕ := 12 + size + padding size

/-- How `transact_cleanup` reads the transaction file: the id and the object, if the two codes
match and are not zero. -/
def pendingTransaction (log : Bytes) : Option (ℕ × Bytes) := do
  let (code, rest) ← decodeLong log
  if code = 0 then none
  else
    let (size, rest) ← decodeLong rest
    let (id, rest) ← decodeLong rest
    if rest.length < size + padding size then none
    else
      let (code₂, _) ← decodeLong (rest.drop (size + padding size))
      if code = code₂ then some (id, rest.take size) else none

/-! ## The disk -/

/-- The files of a database. -/
structure Disk where
  collection : Bytes
  extension : ℕ → Option Bytes
  log : Bytes

/-- The system calls that change the disk. -/
inductive DiskOp where
  | writeLog (off : ℕ) (data : Bytes)
  | truncateLog
  | writeCollection (off : ℕ) (data : Bytes)
  /-- `fopen(..., "w+")` of an extension file. -/
  | createExtension (id : ℕ)
  | appendExtension (id : ℕ) (data : Bytes)
  | unlinkExtension (id : ℕ)

def DiskOp.apply (d : Disk) : DiskOp → Disk
  | .writeLog off data => { d with log := writeAt 0 d.log off data }
  | .truncateLog => { d with log := [] }
  | .writeCollection off data => { d with collection := writeAt 0 d.collection off data }
  | .createExtension id => { d with extension := Function.update d.extension id (some []) }
  | .appendExtension id data =>
    { d with
      extension := Function.update d.extension id (some ((d.extension id).getD [] ++ data)) }
  | .unlinkExtension id => { d with extension := Function.update d.extension id none }

/-- Carry out a list of system calls. -/
def applyOps (d : Disk) (ops : List DiskOp) : Disk := ops.foldl DiskOp.apply d

/-! ## Transactions -/

/-- Storing an object.  A block is written only if it starts with the id it is for or is free; the
extension file is written in the pieces in which stdio writes it. -/
def storeOps (blocksize id : ℕ) (mem : Bytes) (pieces : List Bytes) : List DiskOp :=
  if mem.length ≤ blocksize then
    if firstWord mem = encodeLong dbFree ∨ firstWord mem = encodeLong id then
      [.writeCollection (id * blocksize) (mem ++ List.replicate (blocksize - mem.length) 0),
        .unlinkExtension id]
    else
      []
  else
    .createExtension id :: pieces.map (.appendExtension id)

/-- Consecutive writes to the transaction file, from an offset on. -/
def logWrites : ℕ → List Bytes → List DiskOp
  | _, [] => []
  | off, piece :: pieces => .writeLog off piece :: logWrites (off + piece.length) pieces

/-- The wrong object for a block: `transact` aborts the process. -/
def Aborts (blocksize id : ℕ) (mem : Bytes) : Prop :=
  mem.length ≤ blocksize ∧ ¬ (firstWord mem = encodeLong dbFree ∨ firstWord mem = encodeLong id)

instance (blocksize id : ℕ) (mem : Bytes) : Decidable (Aborts blocksize id mem) :=
  inferInstanceAs (Decidable (_ ∧ _))

/-- `transact`.  The record reaches the transaction file in the pieces `logged`. -/
def transactOps (blocksize id : ℕ) (mem : Bytes) (logged stored : List Bytes) : List DiskOp :=
  logWrites 0 logged ++
    if Aborts blocksize id mem then []
    else storeOps blocksize id mem stored ++ [.writeLog 0 (encodeLong 0)]

/-- `transact_cleanup`. -/
def cleanupOps (blocksize : ℕ) (d : Disk) (stored : List Bytes) : List DiskOp :=
  match pendingTransaction d.log with
  | none => [.truncateLog]
  | some (id, mem) => storeOps blocksize id mem stored ++ [.truncateLog]

/-- How stdio cuts the record into writes.  Its buffer is larger than the three longs at the start
of a record, so the first write holds at least these. -/
structure LogPieces (code id : ℕ) (mem : Bytes) (logged : List Bytes) : Prop where
  whole : logged.flatten = logRecord code id mem
  first : ∀ piece ∈ logged.head?, 12 ≤ piece.length

/-- `transact` is cut short after some of its writes. -/
def Crashes (blocksize code id : ℕ) (mem : Bytes) (d d' : Disk) : Prop :=
  ∃ logged stored count, LogPieces code id mem logged ∧ stored.flatten = mem ∧
    d' = applyOps d ((transactOps blocksize id mem logged stored).take count)

/-- The pieces in which the pending object, if any, is written by a cleanup. -/
def StoredPieces (d : Disk) (stored : List Bytes) : Prop :=
  ∀ id mem, pendingTransaction d.log = some (id, mem) → stored.flatten = mem

/-- A run of `transact_cleanup` that is cut short. -/
def CleanupCrashes (blocksize : ℕ) (d d' : Disk) : Prop :=
  ∃ stored count, StoredPieces d stored ∧
    d' = applyOps d ((cleanupOps blocksize d stored).take count)

/-- A run of `transact_cleanup` to its end. -/
def CleanupCompletes (blocksize : ℕ) (d d' : Disk) : Prop :=
  ∃ stored, StoredPieces d stored ∧ d' = applyOps d (cleanupOps blocksize d stored)

/-! ## Reading -/

/-- The XDR routines for directories, with the id in the encoded object. -/
structure Codec (Obj : Type*) where
  decode : Bytes → Option Obj
  objectId : Obj → ℕ

/-- The result of `file_read` on an encoded object. -/
def readRecord {Obj : Type*} (codec : Codec Obj) (id : ℕ) (bytes : Bytes) : Option Obj :=
  match codec.decode bytes with
  | none => none
  | some obj =>
    if codec.objectId obj = dbFree then none
    else if codec.objectId obj ≠ id then none
    else some obj

/-- `highest_id` as `file_init` computes it. -/
def highestId (blocksize : ℕ) (d : Disk) : ℕ := (d.collection.length + blocksize - 1) / blocksize

/-- `file_read`; `none` stands for its error returns. -/
def fileRead {Obj : Type*} (codec : Codec Obj) (blocksize highest : ℕ) (d : Disk) (id : ℕ) :
    Option Obj :=
  if id ≥ highest then none
  else
    match d.extension id with
    | none => readRecord codec id (d.collection.drop (id * blocksize))
    | some bytes => readRecord codec id bytes

end Darwin.Netinfo
