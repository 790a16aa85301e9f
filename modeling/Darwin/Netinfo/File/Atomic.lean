import Mathlib.Order.MinMax
import Darwin.Netinfo.File.Basic

/-!
# Transactions are atomic

Whatever the point at which `transact` is interrupted, and however often `transact_cleanup` is
interrupted after that, a cleanup that runs to its end leaves the old object or the complete new
one, and every other object as it was.  The one thing this needs is that the four bytes which the
transaction file already holds at the place of the second code are not the new code: otherwise a
record of which only the first part was written passes for a complete one.

## Main results

* `transact_atomic`: atomicity of a transaction under this condition.
* `stale_code_breaks_atomicity`: stale bytes that happen to be the new code.
-/

namespace Darwin.Netinfo

open Function (update_self)
open List Darwin.Lib

/-! ## Reading the log -/

section Log

variable {n code id : ℕ} {bytes rest mem : Bytes}

theorem decodeLong_encodeLong (small : n < 2 ^ 32) (rest : Bytes) :
    decodeLong (encodeLong n ++ rest) = some (n, rest) := by
  simp only [encodeLong, cons_append, nil_append, decodeLong, UInt8.toNat_ofNat',
    Option.some.injEq, Prod.mk.injEq, and_true]
  omega

theorem length_encodeLong (n : ℕ) : (encodeLong n).length = 4 := rfl

theorem length_header (code id : ℕ) (mem : Bytes) : (header code id mem).length = 12 := rfl

theorem length_logRecord (code id : ℕ) (mem : Bytes) :
    (logRecord code id mem).length = tailOffset mem.length + 4 := by
  simp only [logRecord, length_append, length_header, length_replicate,
    length_encodeLong, tailOffset]
  omega

/-- A code read from a stream is the one its first four bytes encode. -/
theorem encodeLong_of_decodeLong
    (decoded : decodeLong bytes = some (n, rest)) : bytes.take 4 = encodeLong n := by
  match bytes, decoded with
  | a :: b :: c :: d :: tail, decoded =>
    obtain ⟨rfl, -⟩ := decoded
    have ha := a.toNat_lt
    have hb := b.toNat_lt
    have hc := c.toNat_lt
    have hd := d.toNat_lt
    simp only [take_succ_cons, take_zero, encodeLong, List.cons.injEq, and_true]
    refine ⟨?_, ?_, ?_, ?_⟩ <;>
    · apply UInt8.toNat.inj
      rw [UInt8.toNat_ofNat']
      omega

/-- What the cleanup finds in a log that starts with a complete header. -/
theorem pendingTransaction_header (nonzero : code ≠ 0)
    (codeSmall : code < 2 ^ 32) (idSmall : id < 2 ^ 32) (sizeSmall : mem.length < 2 ^ 32) :
    pendingTransaction (header code id mem ++ rest) =
      if rest.length < mem.length + padding mem.length then none
      else
        match decodeLong (rest.drop (mem.length + padding mem.length)) with
        | none => none
        | some (code₂, _) => if code = code₂ then some (id, rest.take mem.length) else none := by
  rw [pendingTransaction, header, append_assoc, append_assoc, decodeLong_encodeLong codeSmall]
  simp only [Option.bind_eq_bind, Option.bind_some, nonzero, if_false]
  rw [decodeLong_encodeLong sizeSmall]
  simp only [Option.bind_some]
  rw [decodeLong_encodeLong idSmall]
  simp only [Option.bind_some]
  split
  · rfl
  · cases decodeLong (rest.drop (mem.length + padding mem.length)) with
    | none => rfl
    | some found => rfl

/-- The log while a record is being written: the first `n` bytes are new. -/
def partialLog (old record : Bytes) (n : ℕ) : Bytes := record.take n ++ old.drop n

/-- A log whose first code is missing or zero. -/
def Idle (log : Bytes) : Prop := log.length < 4 ∨ log.take 4 = encodeLong 0

theorem decodeLong_lt (decoded : decodeLong bytes = some (n, rest)) :
    n < 2 ^ 32 ∧ 4 ≤ bytes.length := by
  match bytes, decoded with
  | a :: b :: c :: d :: tail, decoded =>
    obtain ⟨rfl, -⟩ := decoded
    have ha := a.toNat_lt
    have hb := b.toNat_lt
    have hc := c.toNat_lt
    have hd := d.toNat_lt
    refine ⟨by omega, ?_⟩
    simp only [length_cons]
    omega

theorem pendingTransaction_idle {log : Bytes} (idle : Idle log) : pendingTransaction log = none := by
  rw [pendingTransaction]
  cases decoded : decodeLong log with
  | none => rfl
  | some found =>
    obtain ⟨code, rest⟩ := found
    obtain ⟨small, long⟩ := decodeLong_lt decoded
    rcases idle with short | zero
    · exact absurd long (not_le.mpr short)
    have first := congrArg (fun bytes => decodeLong (bytes ++ []))
      (zero.symm.trans (encodeLong_of_decodeLong decoded))
    simp only [decodeLong_encodeLong (n := 0) (by decide), decodeLong_encodeLong small,
      Option.some.injEq, Prod.mk.injEq, and_true] at first
    simp [← first]

variable (nonzero : code ≠ 0) (codeSmall : code < 2 ^ 32) (idSmall : id < 2 ^ 32)
  (sizeSmall : mem.length < 2 ^ 32)

include nonzero codeSmall idSmall sizeSmall

/-- Until the object is in the log as a whole, the second code is stale; afterwards whatever passes
for a transaction is the new one. -/
theorem pendingTransaction_partial {old : Bytes}
    (fresh : (old.drop (tailOffset mem.length)).take 4 ≠ encodeLong code) (started : 12 ≤ n) :
    pendingTransaction (partialLog old (logRecord code id mem) n) = none ∨
      pendingTransaction (partialLog old (logRecord code id mem) n) = some (id, mem) := by
  have split : partialLog old (logRecord code id mem) n = header code id mem ++
      (((mem ++ List.replicate (padding mem.length) 0) ++ encodeLong code).take (n - 12) ++
        old.drop n) := by
    rw [partialLog, logRecord, append_assoc, take_append, length_header,
      take_of_length_le (by rw [length_header]; exact started), append_assoc]
  rw [split, pendingTransaction_header nonzero codeSmall idSmall sizeSmall]
  split
  · exact .inl rfl
  rename_i enough
  by_cases complete : tailOffset mem.length ≤ n
  · -- the object is there as a whole
    have body : mem <+: ((mem ++ List.replicate (padding mem.length) 0) ++ encodeLong code).take
        (n - 12) ++ old.drop n := by
      refine List.IsPrefix.trans ?_ (prefix_append _ _)
      rw [prefix_take_iff]
      refine ⟨(prefix_append _ _).trans (prefix_append _ _), ?_⟩
      rw [tailOffset] at complete
      omega
    obtain ⟨tail, body⟩ := body
    rw [← body, take_left']
    · cases decodeLong ((mem ++ tail).drop (mem.length + padding mem.length)) with
      | none => exact .inl rfl
      | some found =>
        dsimp only
        split
        · exact .inr rfl
        · exact .inl rfl
    · rfl
  · -- the bytes at the place of the second code are stale
    have stale : ((((mem ++ List.replicate (padding mem.length) 0) ++ encodeLong code).take (n - 12) ++
        old.drop n).drop (mem.length + padding mem.length)) = old.drop (tailOffset mem.length) := by
      have short : n - 12 ≤ mem.length + padding mem.length := by
        rw [tailOffset] at complete
        omega
      rw [drop_append, length_take, drop_eq_nil_of_le, nil_append, drop_drop, tailOffset]
      · congr 1
        simp only [length_append, length_replicate, length_encodeLong]
        omega
      · rw [length_take]
        omega
    rw [stale]
    cases decoded : decodeLong (old.drop (tailOffset mem.length)) with
    | none => exact .inl rfl
    | some found =>
      obtain ⟨code₂, rest⟩ := found
      dsimp only
      split
      · rename_i same
        subst same
        exact absurd (encodeLong_of_decodeLong decoded) fresh
      · exact .inl rfl

theorem pendingTransaction_logRecord :
    pendingTransaction (logRecord code id mem ++ rest) = some (id, mem) := by
  have size : (mem ++ List.replicate (padding mem.length) 0).length =
      mem.length + padding mem.length := by
    rw [length_append, length_replicate]
  rw [logRecord, append_assoc, append_assoc,
    pendingTransaction_header nonzero codeSmall idSmall sizeSmall, if_neg, drop_left' size,
    decodeLong_encodeLong codeSmall]
  · simp
  · rw [length_append, size]
    omega

end Log

/-! ## Writing the log -/

section LogWrites

theorem applyOps_append (d : Disk) (first second : List DiskOp) :
    applyOps d (first ++ second) = applyOps (applyOps d first) second := foldl_append

theorem take_logWrites (off count : ℕ) (pieces : List Bytes) :
    (logWrites off pieces).take count = logWrites off (pieces.take count) := by
  induction pieces generalizing off count with
  | nil => simp [logWrites]
  | cons piece pieces ih =>
    cases count with
    | zero => simp [logWrites]
    | succ count => simp [logWrites, ih]

theorem length_logWrites (off : ℕ) (pieces : List Bytes) :
    (logWrites off pieces).length = pieces.length := by
  induction pieces generalizing off with
  | nil => rfl
  | cons piece pieces ih => simp [logWrites, ih]

/-- Consecutive writes append to what was written before and leave the stale rest. -/
theorem applyOps_logWrites (d : Disk) (front rest : Bytes) (pieces : List Bytes)
    (log : d.log = front ++ rest) :
    applyOps d (logWrites front.length pieces) =
      { d with log := front ++ pieces.flatten ++ rest.drop pieces.flatten.length } := by
  induction pieces generalizing d front rest with
  | nil => simp [logWrites, applyOps, ← log]
  | cons piece pieces ih =>
    have written : (DiskOp.writeLog front.length piece).apply d =
        { d with log := (front ++ piece) ++ rest.drop piece.length } := by
      rw [DiskOp.apply, log, writeAt_append]
    have next := ih { d with log := (front ++ piece) ++ rest.drop piece.length } (front ++ piece)
      (rest.drop piece.length) rfl
    rw [length_append] at next
    rw [logWrites, applyOps, foldl_cons, written]
    refine next.trans ?_
    simp [drop_drop]

/-- Some of the pieces of a record. -/
theorem flatten_take_pieces {record : Bytes} {pieces : List Bytes} (whole : pieces.flatten = record)
    (count : ℕ) :
    (pieces.take count).flatten = record.take (pieces.take count).flatten.length := by
  have parts : (pieces.take count).flatten ++ (pieces.drop count).flatten = record := by
    rw [← flatten_append, take_append_drop, whole]
  rw [← parts, take_left']
  rfl

/-- The log after some of the writes of a record. -/
theorem applyOps_take_logWrites {code id : ℕ} {mem : Bytes} {logged : List Bytes} (d : Disk)
    (pieces : LogPieces code id mem logged) (count : ℕ) :
    ∃ n, (n = 0 ∨ 12 ≤ n) ∧ (logged.length ≤ count → n = (logRecord code id mem).length) ∧
      applyOps d ((logWrites 0 logged).take count) =
        { d with log := partialLog d.log (logRecord code id mem) n } := by
  refine ⟨(logged.take count).flatten.length, ?_, ?_, ?_⟩
  · cases logged with
    | nil => exact .inl (by simp)
    | cons piece rest =>
      cases count with
      | zero => exact .inl (by simp)
      | succ count =>
        have := pieces.first piece (by simp)
        refine .inr ?_
        rw [take_succ_cons, flatten_cons, length_append]
        omega
  · intro all
    rw [take_of_length_le all, pieces.whole]
  rw [take_logWrites]
  have written := applyOps_logWrites d [] d.log (logged.take count) rfl
  rw [length_nil] at written
  rw [written, partialLog, ← flatten_take_pieces pieces.whole count, nil_append]

end LogWrites

/-! ## Storing the object -/

section Store

variable {blocksize id : ℕ} {mem : Bytes} {d₀ d : Disk}

/-- The block that holds an object. -/
def blockOf (blocksize : ℕ) (mem : Bytes) : Bytes :=
  mem ++ List.replicate (blocksize - mem.length) 0

/-- The collection file after the object was stored. -/
def storedCollection (blocksize id : ℕ) (mem collection : Bytes) : Bytes :=
  if mem.length ≤ blocksize ∧ ¬ Aborts blocksize id mem then
    writeAt 0 collection (id * blocksize) (blockOf blocksize mem)
  else
    collection

/-- The extension file of the object after it was stored. -/
def storedExtension (blocksize id : ℕ) (mem : Bytes) (old : Option Bytes) : Option Bytes :=
  if Aborts blocksize id mem then old
  else if mem.length ≤ blocksize then none else some mem

/-- Only what belongs to the object has changed, and the collection at most in the way in which
storing the object changes it. -/
structure PartlyStored (blocksize id : ℕ) (mem : Bytes) (d₀ d : Disk) : Prop where
  others : ∀ j, j ≠ id → d.extension j = d₀.extension j
  collection : d.collection = d₀.collection ∨
    d.collection = storedCollection blocksize id mem d₀.collection
  refused : Aborts blocksize id mem → d.extension id = d₀.extension id

/-- The object is stored. -/
structure Stored (blocksize id : ℕ) (mem : Bytes) (d₀ d : Disk) : Prop where
  others : ∀ j, j ≠ id → d.extension j = d₀.extension j
  collection : d.collection = storedCollection blocksize id mem d₀.collection
  extension : d.extension id = storedExtension blocksize id mem (d₀.extension id)

theorem storedCollection_idem (collection : Bytes) :
    storedCollection blocksize id mem (storedCollection blocksize id mem collection) =
      storedCollection blocksize id mem collection := by
  rw [storedCollection, storedCollection]
  split
  · exact writeAt_writeAt
  · rfl

/-- The writes of a block, or of an extension file, or none at all. -/
theorem storeOps_cases (pieces : List Bytes) :
    (Aborts blocksize id mem ∧ storeOps blocksize id mem pieces = []) ∨
    (¬ Aborts blocksize id mem ∧ mem.length ≤ blocksize ∧ storeOps blocksize id mem pieces =
      [.writeCollection (id * blocksize) (blockOf blocksize mem), .unlinkExtension id]) ∨
    (¬ Aborts blocksize id mem ∧ ¬ mem.length ≤ blocksize ∧ storeOps blocksize id mem pieces =
      .createExtension id :: pieces.map (.appendExtension id)) := by
  rw [storeOps, Aborts]
  by_cases block : mem.length ≤ blocksize
  · by_cases word : firstWord mem = encodeLong dbFree ∨ firstWord mem = encodeLong id
    · exact .inr (.inl ⟨by simp [word], block, by rw [if_pos block, if_pos word]; rfl⟩)
    · exact .inl ⟨⟨block, word⟩, by rw [if_pos block, if_neg word]⟩
  · exact .inr (.inr ⟨by simp [block], block, by rw [if_neg block]⟩)

variable {pieces : List Bytes}

/-- One write of the store. -/
theorem PartlyStored.apply {op : DiskOp}
    (partly : PartlyStored blocksize id mem d₀ d) (mem_op : op ∈ storeOps blocksize id mem pieces) :
    PartlyStored blocksize id mem d₀ (op.apply d) ∧ (op.apply d).log = d.log := by
  rcases storeOps_cases pieces with ⟨-, ops⟩ | ⟨fine, block, ops⟩ | ⟨fine, big, ops⟩
  · rw [ops] at mem_op
    cases mem_op
  · rw [ops, mem_cons, mem_singleton] at mem_op
    rcases mem_op with rfl | rfl
    · refine ⟨⟨partly.others, .inr ?_, partly.refused⟩, rfl⟩
      have stored (collection : Bytes) : storedCollection blocksize id mem collection =
          writeAt 0 collection (id * blocksize) (blockOf blocksize mem) := if_pos ⟨block, fine⟩
      rcases partly.collection with same | same
      · rw [DiskOp.apply, stored, same]
      · rw [DiskOp.apply, same, ← stored, storedCollection_idem]
    · refine ⟨⟨fun j other => ?_, partly.collection, fun aborts => absurd aborts fine⟩, rfl⟩
      exact (Function.update_of_ne other _ _).trans (partly.others j other)
  · have update (value : Option Bytes) : PartlyStored blocksize id mem d₀
        { d with extension := Function.update d.extension id value } := by
      refine ⟨fun j other => ?_, partly.collection, fun aborts => absurd aborts fine⟩
      exact (Function.update_of_ne other _ _).trans (partly.others j other)
    rw [ops, mem_cons, mem_map] at mem_op
    rcases mem_op with rfl | ⟨piece, -, rfl⟩
    · exact ⟨update _, rfl⟩
    · exact ⟨update _, rfl⟩

theorem PartlyStored.applyOps {ops : List DiskOp} (partly : PartlyStored blocksize id mem d₀ d)
    (all : ∀ op ∈ ops, op ∈ storeOps blocksize id mem pieces) :
    PartlyStored blocksize id mem d₀ (applyOps d ops) ∧ (applyOps d ops).log = d.log := by
  induction ops generalizing d with
  | nil => exact ⟨partly, rfl⟩
  | cons op ops ih =>
    obtain ⟨next, log⟩ := partly.apply (all op mem_cons_self)
    obtain ⟨rest, log'⟩ := ih next fun op' inside => all op' (mem_cons_of_mem op inside)
    exact ⟨rest, log'.trans log⟩

theorem applyOps_appendExtension (pieces : List Bytes) (written : Bytes)
    (extension : d.extension id = some written) :
    applyOps d (pieces.map (.appendExtension id)) =
      { d with
        extension := Function.update d.extension id (some (written ++ pieces.flatten)) } := by
  induction pieces generalizing d written with
  | nil =>
    rw [flatten_nil, append_nil, ← extension, Function.update_eq_self]
    rfl
  | cons piece pieces ih =>
    rw [map_cons, applyOps, foldl_cons, DiskOp.apply, extension, Option.getD_some]
    refine (ih (written ++ piece) (update_self ..)).trans ?_
    simp

/-- All the writes of the store, from wherever it was interrupted before. -/
theorem PartlyStored.stored (partly : PartlyStored blocksize id mem d₀ d)
    (whole : pieces.flatten = mem) :
    Stored blocksize id mem d₀ (Netinfo.applyOps d (storeOps blocksize id mem pieces)) ∧
      (Netinfo.applyOps d (storeOps blocksize id mem pieces)).log = d.log := by
  obtain ⟨after, log⟩ :
      PartlyStored blocksize id mem d₀ (Netinfo.applyOps d (storeOps blocksize id mem pieces)) ∧
        (Netinfo.applyOps d (storeOps blocksize id mem pieces)).log = d.log :=
    partly.applyOps fun _ inside => inside
  refine ⟨?_, log⟩
  rcases storeOps_cases pieces with ⟨aborts, ops⟩ | ⟨fine, block, ops⟩ | ⟨fine, big, ops⟩
  · have same : storedCollection blocksize id mem d₀.collection = d₀.collection :=
      if_neg fun h => h.2 aborts
    refine ⟨after.others, ?_, ?_⟩
    · rcases after.collection with h | h
      · rw [h, same]
      · exact h
    · rw [after.refused aborts, storedExtension, if_pos aborts]
  · refine ⟨after.others, ?_, ?_⟩
    · have stored (collection : Bytes) : storedCollection blocksize id mem collection =
          writeAt 0 collection (id * blocksize) (blockOf blocksize mem) := if_pos ⟨block, fine⟩
      rw [ops]
      show writeAt 0 d.collection (id * blocksize) (blockOf blocksize mem) = _
      rcases partly.collection with h | h
      · rw [h, stored]
      · rw [h, ← stored, storedCollection_idem]
    · rw [ops, storedExtension, if_neg fine, if_pos block]
      exact update_self ..
  · have same : storedCollection blocksize id mem d₀.collection = d₀.collection :=
      if_neg fun h => big h.1
    refine ⟨after.others, ?_, ?_⟩
    · rcases after.collection with h | h
      · rw [h, same]
      · exact h
    rw [ops, storedExtension, if_neg fine, if_neg big]
    have created : ((DiskOp.createExtension id).apply d).extension id = some [] :=
      update_self ..
    have appended := applyOps_appendExtension pieces [] created
    rw [nil_append, whole] at appended
    rw [Netinfo.applyOps, foldl_cons]
    refine (congrArg (fun e : Disk => e.extension id) appended).trans ?_
    exact update_self ..

end Store

/-! ## The states between crashes -/

section Phases

variable {blocksize code id : ℕ} {mem : Bytes} {d₀ d d' : Disk}

/-- The states that an interrupted transaction and interrupted cleanups can leave: nothing has
happened, the object is in the log and maybe partly stored, or it is stored. -/
inductive Phase (blocksize id : ℕ) (mem : Bytes) (d₀ d : Disk) : Prop
  | untouched : d.collection = d₀.collection → d.extension = d₀.extension →
      pendingTransaction d.log = none → Phase blocksize id mem d₀ d
  | logged : PartlyStored blocksize id mem d₀ d → pendingTransaction d.log = some (id, mem) →
      Phase blocksize id mem d₀ d
  | stored : Stored blocksize id mem d₀ d → pendingTransaction d.log = none →
      Phase blocksize id mem d₀ d

theorem pendingTransaction_nil : pendingTransaction [] = none := rfl

theorem PartlyStored.of_same (collection : d.collection = d₀.collection)
    (extension : d.extension = d₀.extension) : PartlyStored blocksize id mem d₀ d :=
  ⟨fun j _ => by rw [extension], .inl collection, fun _ => by rw [extension]⟩

theorem take_append_singleton (ops : List DiskOp) (last : DiskOp) (count : ℕ) :
    (ops ++ [last]).take count = ops ++ [last] ∨ (ops ++ [last]).take count = ops.take count := by
  by_cases all : ops.length < count
  · refine .inl (take_of_length_le ?_)
    rw [length_append, length_singleton]
    exact all
  · exact .inr (take_append_of_le_length (Nat.le_of_not_lt all))

/-- The store followed by one write to the log, cut short. -/
theorem phase_of_store {pieces : List Bytes} {last : DiskOp} (count : ℕ)
    (partly : PartlyStored blocksize id mem d₀ d) (logged : pendingTransaction d.log = some (id, mem))
    (whole : pieces.flatten = mem)
    (frame : ∀ e : Disk, (last.apply e).collection = e.collection ∧
      (last.apply e).extension = e.extension)
    (cleared : ∀ e : Disk, e.log = d.log → pendingTransaction (last.apply e).log = none) :
    Phase blocksize id mem d₀
      (applyOps d ((storeOps blocksize id mem pieces ++ [last]).take count)) := by
  rcases take_append_singleton (storeOps blocksize id mem pieces) last count with all | some
  · obtain ⟨stored, log⟩ := partly.stored whole
    rw [all, applyOps_append]
    obtain ⟨collection, extension⟩ := frame (applyOps d (storeOps blocksize id mem pieces))
    refine .stored ⟨?_, ?_, ?_⟩ (cleared _ log)
    · intro j other
      exact (congrFun extension j).trans (stored.others j other)
    · exact collection.trans stored.collection
    · exact (congrFun extension id).trans stored.extension
  · obtain ⟨next, log⟩ := partly.applyOps
      fun op (inside : op ∈ (storeOps blocksize id mem pieces).take count) =>
        mem_of_mem_take inside
    rw [some]
    exact .logged next (by rw [log, logged])

theorem phase_of_crash (nonzero : code ≠ 0) (codeSmall : code < 2 ^ 32) (idSmall : id < 2 ^ 32)
    (sizeSmall : mem.length < 2 ^ 32) (idle : Idle d₀.log)
    (fresh : (d₀.log.drop (tailOffset mem.length)).take 4 ≠ encodeLong code)
    (crash : Crashes blocksize code id mem d₀ d) : Phase blocksize id mem d₀ d := by
  obtain ⟨logged, stored, count, pieces, whole, rfl⟩ := crash
  obtain ⟨n, started, complete, log⟩ := applyOps_take_logWrites d₀ pieces count
  rw [transactOps, take_append, applyOps_append, log]
  by_cases finished : logged.length ≤ count
  · -- the record is in the log; the rest is the store and the final zero
    have record : partialLog d₀.log (logRecord code id mem) n =
        logRecord code id mem ++ d₀.log.drop n := by
      rw [partialLog, complete finished, take_length]
    have pending : pendingTransaction (partialLog d₀.log (logRecord code id mem) n) =
        some (id, mem) := by
      rw [record, pendingTransaction_logRecord nonzero codeSmall idSmall sizeSmall]
    split
    · rw [take_nil]
      exact .logged (.of_same rfl rfl) pending
    refine phase_of_store _ (.of_same rfl rfl) pending whole (fun e => ⟨rfl, rfl⟩) ?_
    intro e _
    refine pendingTransaction_idle (.inr ?_)
    show (writeAt 0 e.log 0 (encodeLong 0)).take 4 = _
    rw [writeAt, take_zero, nil_append, take_left' (length_encodeLong 0)]
  · -- only part of the record was written
    have notYet : count - (logWrites 0 logged).length = 0 := by
      rw [length_logWrites]
      omega
    rw [notYet, take_zero]
    rcases started with rfl | started
    · refine .untouched rfl rfl ?_
      show pendingTransaction (partialLog d₀.log _ 0) = none
      rw [partialLog, take_zero, nil_append, drop_zero]
      exact pendingTransaction_idle idle
    · rcases pendingTransaction_partial nonzero codeSmall idSmall sizeSmall fresh started with
        none | pending
      · exact .untouched rfl rfl none
      · exact .logged (.of_same rfl rfl) pending

theorem Phase.cleanupCrashes (phase : Phase blocksize id mem d₀ d)
    (crash : CleanupCrashes blocksize d d') : Phase blocksize id mem d₀ d' := by
  obtain ⟨stored, count, pieces, rfl⟩ := crash
  have nothing (none : pendingTransaction d.log = none) :
      applyOps d ((cleanupOps blocksize d stored).take count) = d ∨
      applyOps d ((cleanupOps blocksize d stored).take count) = { d with log := [] } := by
    rw [cleanupOps, none]
    cases count with
    | zero => exact .inl rfl
    | succ count => exact .inr (by rw [take_succ_cons, take_nil]; rfl)
  cases phase with
  | untouched collection extension none =>
    rcases nothing none with same | same
    · rw [same]
      exact .untouched collection extension none
    · rw [same]
      exact .untouched collection extension rfl
  | logged partly pending =>
    rw [cleanupOps, pending]
    exact phase_of_store count partly pending (pieces id mem pending) (fun e => ⟨rfl, rfl⟩)
      fun e _ => pendingTransaction_nil
  | stored stored' none =>
    rcases nothing none with same | same
    · rw [same]
      exact .stored stored' none
    · rw [same]
      exact .stored ⟨stored'.others, stored'.collection, stored'.extension⟩ rfl

/-- A cleanup that runs to its end leaves the old state or the new one. -/
theorem Phase.cleanupCompletes (phase : Phase blocksize id mem d₀ d)
    (cleanup : CleanupCompletes blocksize d d') :
    (d.collection = d₀.collection ∧ d'.collection = d₀.collection ∧ d'.extension = d₀.extension) ∨
      Stored blocksize id mem d₀ d' := by
  obtain ⟨stored, pieces, rfl⟩ := cleanup
  have nothing (none : pendingTransaction d.log = none) :
      applyOps d (cleanupOps blocksize d stored) = { d with log := [] } := by
    rw [cleanupOps, none]
    rfl
  cases phase with
  | untouched collection extension none =>
    rw [nothing none]
    exact .inl ⟨collection, collection, extension⟩
  | logged partly pending =>
    have all := (partly.stored (pieces id mem pending)).1
    rw [cleanupOps, pending]
    rw [applyOps_append]
    exact .inr ⟨all.others, all.collection, all.extension⟩
  | stored stored' none =>
    rw [nothing none]
    exact .inr ⟨stored'.others, stored'.collection, stored'.extension⟩

end Phases

/-! ## Reading after recovery -/

section Reading

variable {Obj : Type*} {codec : Codec Obj} {blocksize id j highest : ℕ} {mem : Bytes} {d₀ d e : Disk}

/-- The block of a directory in the collection file. -/
def blockAt (blocksize : ℕ) (d : Disk) (j : ℕ) : Bytes :=
  (d.collection.drop (j * blocksize)).take blocksize

/-- An encoding that a decoder reads without looking past its end. -/
def SelfDelimiting (codec : Codec Obj) (bytes : Bytes) : Prop :=
  ∀ rest, codec.decode (bytes ++ rest) = codec.decode bytes

/-- The blocks in use hold whole objects: what is read from a block does not depend
on the blocks after it. -/
def WellFormed (codec : Codec Obj) (blocksize : ℕ) (d : Disk) : Prop :=
  ∀ j, j < highestId blocksize d → d.extension j = none →
    SelfDelimiting codec (blockAt blocksize d j)

theorem readRecord_extend {bytes more : Bytes} (delimiting : SelfDelimiting codec bytes)
    (isPrefix : bytes <+: more) : readRecord codec j more = readRecord codec j bytes := by
  obtain ⟨rest, rfl⟩ := isPrefix
  rw [readRecord, readRecord, delimiting rest]

theorem length_blockOf (block : mem.length ≤ blocksize) :
    (blockOf blocksize mem).length = blocksize := by
  rw [blockOf, length_append, length_replicate]
  omega

theorem lt_highestId (positive : 0 < blocksize) :
    j < highestId blocksize d ↔ j * blocksize < d.collection.length := by
  rw [highestId, Nat.lt_iff_add_one_le, Nat.le_div_iff_mul_le positive, Nat.add_mul, Nat.one_mul]
  omega

/-- Storing an object leaves the other blocks readable as they were. -/
theorem blockAt_prefix_stored (other : j ≠ id) :
    blockAt blocksize d₀ j <+:
      (storedCollection blocksize id mem d₀.collection).drop (j * blocksize) := by
  rw [storedCollection, blockAt]
  split
  · rename_i written
    have size := length_blockOf written.1
    rcases lt_or_gt_of_ne other with before | after
    · apply isPrefix_drop_writeAt
      calc j * blocksize + blocksize = (j + 1) * blocksize := by rw [Nat.add_mul, Nat.one_mul]
        _ ≤ id * blocksize := Nat.mul_le_mul_right _ before
    rw [drop_writeAt_after]
    · exact take_prefix _ _
    · rw [size]
      calc id * blocksize + blocksize = (id + 1) * blocksize := by rw [Nat.add_mul, Nat.one_mul]
        _ ≤ j * blocksize := Nat.mul_le_mul_right _ after
  · exact take_prefix _ _

theorem length_storedCollection (blocksize id : ℕ) (mem collection : Bytes) :
    (storedCollection blocksize id mem collection).length = collection.length ∨
      (storedCollection blocksize id mem collection).length =
        max collection.length ((id + 1) * blocksize) := by
  rw [storedCollection]
  split
  · rename_i written
    refine .inr ?_
    rw [length_writeAt, length_blockOf written.1, Nat.add_mul, Nat.one_mul]
  · exact .inl rfl

/-- A handle opened on the recovered database knows the directories it knew before, and at most the
one that was being written. -/
theorem lt_highestId_iff (positive : 0 < blocksize) (known : id ≤ highestId blocksize d₀)
    (other : j ≠ id) (collection : d.collection = d₀.collection ∨
      d.collection = storedCollection blocksize id mem d₀.collection) :
    j < highestId blocksize d ↔ j < highestId blocksize d₀ := by
  rcases collection with same | stored
  · rw [highestId, highestId, same]
  rw [lt_highestId positive, lt_highestId positive, stored]
  rcases length_storedCollection blocksize id mem d₀.collection with same | longer
  · rw [same]
  rw [longer, lt_max_iff]
  refine ⟨?_, .inl⟩
  rintro (old | new)
  · exact old
  -- a directory before the one written was there already
  have before : j < id := by
    have := Nat.lt_of_mul_lt_mul_right new
    omega
  exact (lt_highestId positive).mp (before.trans_le known)

theorem highestId_le (positive : 0 < blocksize) (collection : d.collection = d₀.collection ∨
      d.collection = storedCollection blocksize id mem d₀.collection) :
    id < highestId blocksize d₀ → id < highestId blocksize d := by
  rw [lt_highestId positive, lt_highestId positive]
  intro inside
  rcases collection with same | stored
  · rw [same]
    exact inside
  rw [stored]
  rcases length_storedCollection blocksize id mem d₀.collection with same | longer
  · rw [same]
    exact inside
  · rw [longer]
    exact lt_max_of_lt_left inside

/-- Every other directory reads as before. -/
theorem fileRead_other (wellFormed : WellFormed codec blocksize d₀)
    (other : j ≠ id) (known : j < highest ↔ j < highestId blocksize d₀)
    (extension : d.extension j = d₀.extension j)
    (collection : d.collection = d₀.collection ∨
      d.collection = storedCollection blocksize id mem d₀.collection) :
    fileRead codec blocksize highest d j =
      fileRead codec blocksize (highestId blocksize d₀) d₀ j := by
  by_cases inside : j < highestId blocksize d₀
  · rw [fileRead, fileRead, if_neg (not_le.mpr (known.mpr inside)),
      if_neg (not_le.mpr inside), extension]
    cases hasExtension : d₀.extension j with
    | some bytes => rfl
    | none =>
      have delimiting := wellFormed j inside hasExtension
      have old : blockAt blocksize d₀ j <+: d₀.collection.drop (j * blocksize) :=
        take_prefix _ _
      rw [readRecord_extend delimiting old]
      rcases collection with same | stored
      · rw [same, readRecord_extend delimiting old]
      · rw [stored]
        exact readRecord_extend delimiting (blockAt_prefix_stored other)
  · rw [fileRead, fileRead, if_pos (not_lt.mp fun h => inside (known.mp h)),
      if_pos (not_lt.mp inside)]

/-- The directory that was written reads as the new object, unless the object was refused or the
handle was opened before the directory existed. -/
theorem fileRead_stored (delimiting : SelfDelimiting codec mem)
    (positive : 0 < blocksize) (stored : Stored blocksize id mem d₀ d)
    (opened : e.collection = d₀.collection ∨
      e.collection = storedCollection blocksize id mem d₀.collection) :
    fileRead codec blocksize (highestId blocksize e) d id =
        fileRead codec blocksize (highestId blocksize d₀) d₀ id ∨
      fileRead codec blocksize (highestId blocksize e) d id = readRecord codec id mem := by
  by_cases known : id < highestId blocksize e
  · by_cases aborts : Aborts blocksize id mem
    · refine .inl ?_
      have unchanged : storedCollection blocksize id mem d₀.collection = d₀.collection :=
        if_neg fun h => h.2 aborts
      rw [unchanged, or_self] at opened
      have extension := stored.extension
      rw [storedExtension, if_pos aborts] at extension
      rw [fileRead, fileRead, extension, stored.collection, unchanged, highestId, highestId, opened]
    · refine .inr ?_
      have extension := stored.extension
      rw [storedExtension, if_neg aborts] at extension
      rw [fileRead, if_neg (not_le.mpr known), extension]
      by_cases block : mem.length ≤ blocksize
      · have collection := stored.collection
        rw [storedCollection, if_pos ⟨block, aborts⟩] at collection
        rw [if_pos block, collection]
        rw [drop_writeAt_self]
        exact readRecord_extend delimiting ((prefix_append _ _).trans (prefix_append _ _))
      · rw [if_neg block]
  · refine .inl ?_
    have before : ¬ id < highestId blocksize d₀ := fun h => known (highestId_le positive opened h)
    rw [fileRead, fileRead, if_pos (not_lt.mp known), if_pos (not_lt.mp before)]

end Reading

/-! ## Atomicity -/

section Atomicity

variable {Obj : Type*} {codec : Codec Obj} {blocksize code id : ℕ} {mem : Bytes}
  {d₀ d₁ d₂ d₃ : Disk}

theorem Phase.collection (phase : Phase blocksize id mem d₀ d₁) :
    d₁.collection = d₀.collection ∨
      d₁.collection = storedCollection blocksize id mem d₀.collection := by
  cases phase with
  | untouched collection _ _ => exact .inl collection
  | logged partly _ => exact partly.collection
  | stored stored _ => exact .inr stored.collection

theorem Phase.recovery (phase : Phase blocksize id mem d₀ d₁)
    (crashes : Relation.ReflTransGen (CleanupCrashes blocksize) d₁ d₂) :
    Phase blocksize id mem d₀ d₂ := by
  induction crashes with
  | refl => exact phase
  | tail _ crash ih => exact ih.cleanupCrashes crash

/-- `transact` is interrupted anywhere, then `transact_cleanup` any number of times, and then a
cleanup runs to its end.  Every other directory reads as before, and the one that was being written
reads as before or as the complete new object. -/
theorem transact_atomic (positive : 0 < blocksize) (wellFormed : WellFormed codec blocksize d₀)
    (idle : Idle d₀.log) (known : id ≤ highestId blocksize d₀) (idSmall : id < 2 ^ 32)
    (sizeSmall : mem.length < 2 ^ 32) (delimiting : SelfDelimiting codec mem)
    (nonzero : code ≠ 0) (codeSmall : code < 2 ^ 32)
    (fresh : (d₀.log.drop (tailOffset mem.length)).take 4 ≠ encodeLong code)
    (crash : Crashes blocksize code id mem d₀ d₁)
    (crashes : Relation.ReflTransGen (CleanupCrashes blocksize) d₁ d₂)
    (cleanup : CleanupCompletes blocksize d₂ d₃) :
    (∀ j, j ≠ id → fileRead codec blocksize (highestId blocksize d₂) d₃ j =
      fileRead codec blocksize (highestId blocksize d₀) d₀ j) ∧
    (fileRead codec blocksize (highestId blocksize d₂) d₃ id =
        fileRead codec blocksize (highestId blocksize d₀) d₀ id ∨
      fileRead codec blocksize (highestId blocksize d₂) d₃ id = readRecord codec id mem) := by
  have phase : Phase blocksize id mem d₀ d₂ :=
    (phase_of_crash nonzero codeSmall idSmall sizeSmall idle fresh crash).recovery crashes
  rcases phase.cleanupCompletes cleanup with ⟨opened, collection, extension⟩ | stored
  · -- nothing reached the database
    have same (j : ℕ) : fileRead codec blocksize (highestId blocksize d₂) d₃ j =
        fileRead codec blocksize (highestId blocksize d₀) d₀ j := by
      rw [fileRead, fileRead, highestId, highestId, opened, extension, collection]
    exact ⟨fun j _ => same j, .inl (same id)⟩
  · constructor
    · intro j other
      exact fileRead_other wellFormed other
        (lt_highestId_iff positive known other phase.collection) (stored.others j other)
        (.inr stored.collection)
    · exact fileRead_stored delimiting positive stored phase.collection

/-! ### A sample database -/

/-- An object that consists of its id and a string. -/
def sampleCodec : Codec (ℕ × Bytes) where
  decode := fun bytes =>
    match decodeLong bytes with
    | none => none
    | some (id, rest) =>
      match decodeLong rest with
      | none => none
      | some (size, rest) => if rest.length < size then none else some (id, rest.take size)
  objectId := Prod.fst

def sampleObject (id size : ℕ) (byte : UInt8) : Bytes :=
  encodeLong id ++ encodeLong size ++ List.replicate size byte

/-- A collection of one free block and a directory with an extension file.  An earlier transaction
left its bytes in the log, among them, in the middle of its object, four bytes `stale`. -/
def sampleDisk (stale : Bytes) : Disk where
  collection := encodeLong dbFree ++ List.replicate 1020 0
  extension := fun j => if j = 1 then some (sampleObject 1 600 7) else none
  log := encodeLong 0 ++ encodeLong 1216 ++ encodeLong 1 ++
    (encodeLong 1 ++ encodeLong 1208 ++ List.replicate 1192 7 ++ stale ++ List.replicate 12 7) ++
    encodeLong 99

/-- A new object of 1200 bytes for directory 1. -/
def newObject : Bytes := sampleObject 1 1192 8

/-- The record in two writes: a stdio buffer of 1024 bytes, and the rest. -/
def twoPieces (code : ℕ) : List Bytes :=
  [(logRecord code 1 newObject).take 1024, (logRecord code 1 newObject).drop 1024]

theorem twoPieces_whole (code : ℕ) : LogPieces code 1 newObject (twoPieces code) where
  whole := by
    rw [twoPieces, flatten_cons, flatten_cons, flatten_nil, append_nil, take_append_drop]
  first := by
    intro piece first
    cases first
    rw [length_take, length_logRecord]
    decide +kernel

theorem sampleCodec_delimiting {id size : ℕ} {body : Bytes} (idSmall : id < 2 ^ 32)
    (sizeSmall : size < 2 ^ 32) (inside : size ≤ body.length) :
    SelfDelimiting sampleCodec (encodeLong id ++ encodeLong size ++ body) := by
  have decoded (rest : Bytes) :
      sampleCodec.decode (encodeLong id ++ encodeLong size ++ body ++ rest) =
        some (id, body.take size) := by
    simp only [sampleCodec, append_assoc, decodeLong_encodeLong idSmall,
      decodeLong_encodeLong sizeSmall]
    rw [if_neg, take_append_of_le_length inside]
    rw [length_append]
    omega
  intro rest
  have alone := decoded []
  rw [append_nil] at alone
  rw [decoded, alone]

theorem newObject_delimiting : SelfDelimiting sampleCodec newObject :=
  sampleCodec_delimiting (by decide) (by decide) (by rw [length_replicate])

theorem sampleDisk_wellFormed (stale : Bytes) : WellFormed sampleCodec 512 (sampleDisk stale) := by
  intro j inside hasNone
  have first : j = 0 := by
    have two : highestId 512 (sampleDisk stale) = 2 := by
      show ((encodeLong dbFree ++ List.replicate 1020 0).length + 512 - 1) / 512 = 2
      rw [length_append, length_encodeLong, length_replicate]
    have notOne : j ≠ 1 := by
      rintro rfl
      have hasSome : (sampleDisk stale).extension 1 = some (sampleObject 1 600 7) := by
        show (if 1 = 1 then some (sampleObject 1 600 7) else none) = _
        rw [if_pos rfl]
      rw [hasSome] at hasNone
      exact Option.some_ne_none _ hasNone
    omega
  subst first
  have block : blockAt 512 (sampleDisk stale) 0 =
      encodeLong dbFree ++ encodeLong 0 ++ List.replicate 504 0 := by
    show ((encodeLong dbFree ++ List.replicate 1020 0).drop (0 * 512)).take 512 = _
    decide +kernel
  rw [block]
  exact sampleCodec_delimiting (by decide) (by decide) (Nat.zero_le _)

/-- The transaction is interrupted after the record was written.  The theorem applies, and the
directory reads as the new object. -/
theorem transact_atomic_sample :
    fileRead sampleCodec 512 2 (applyOps (applyOps (sampleDisk [7, 7, 7, 7])
        ((transactOps 512 1 newObject (twoPieces 5) [newObject]).take 2))
          (cleanupOps 512 (applyOps (sampleDisk [7, 7, 7, 7])
            ((transactOps 512 1 newObject (twoPieces 5) [newObject]).take 2)) [newObject])) 1 =
      some (1, List.replicate 1192 8) ∧
    ∀ d₁ d₂ d₃, Crashes 512 5 1 newObject (sampleDisk [7, 7, 7, 7]) d₁ →
      Relation.ReflTransGen (CleanupCrashes 512) d₁ d₂ → CleanupCompletes 512 d₂ d₃ →
      fileRead sampleCodec 512 (highestId 512 d₂) d₃ 0 =
        fileRead sampleCodec 512 (highestId 512 (sampleDisk [7, 7, 7, 7]))
          (sampleDisk [7, 7, 7, 7]) 0 := by
  refine ⟨by decide +kernel, fun d₁ d₂ d₃ crash crashes cleanup => ?_⟩
  have atomic := transact_atomic (by decide) (sampleDisk_wellFormed [7, 7, 7, 7])
    (.inr (by decide +kernel)) (by decide +kernel) (by decide) (by decide +kernel)
    newObject_delimiting (by decide) (by decide) (by decide +kernel) crash crashes cleanup
  exact atomic.1 0 (by decide)

/-- The log before holds, in the middle of an old object, the four bytes of the new code at the
place of the second code of the new record.  After the first write of the record alone, the cleanup
stores a mixture of the new object and the old one. -/
theorem stale_code_breaks_atomicity :
    WellFormed sampleCodec 512 (sampleDisk (encodeLong 5)) ∧
    SelfDelimiting sampleCodec newObject ∧ Idle (sampleDisk (encodeLong 5)).log ∧
    ∃ d₁ d₃, Crashes 512 5 1 newObject (sampleDisk (encodeLong 5)) d₁ ∧ CleanupCompletes 512 d₁ d₃ ∧
      fileRead sampleCodec 512 (highestId 512 d₁) d₃ 1 ≠
        fileRead sampleCodec 512 (highestId 512 (sampleDisk (encodeLong 5)))
          (sampleDisk (encodeLong 5)) 1 ∧
      fileRead sampleCodec 512 (highestId 512 d₁) d₃ 1 ≠
        readRecord sampleCodec 1 newObject := by
  refine ⟨sampleDisk_wellFormed _, newObject_delimiting, .inr (by decide +kernel), ?_⟩
  have mixed : pendingTransaction (applyOps (sampleDisk (encodeLong 5))
      ((transactOps 512 1 newObject (twoPieces 5) [newObject]).take 1)).log =
      some (1, newObject.take 1012 ++ List.replicate 188 7) := by
    decide +kernel
  refine ⟨_, _, ⟨twoPieces 5, [newObject], 1, twoPieces_whole 5, by simp, rfl⟩,
    ⟨[newObject.take 1012 ++ List.replicate 188 7], ?_, rfl⟩, ?_, ?_⟩
  · intro id mem pending
    rw [mixed] at pending
    obtain ⟨-, rfl⟩ := Prod.mk.inj (Option.some.inj pending)
    simp
  · decide +kernel
  · decide +kernel

end Atomicity

end Darwin.Netinfo
