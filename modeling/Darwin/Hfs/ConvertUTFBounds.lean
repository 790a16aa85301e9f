import Darwin.Hfs.ConvertUTF

/-!
# The buffers of the UTF-8 decoder

The decoder checks once for each sequence that its bytes are there, with the number of the bytes
that *follow* the first one.  A sequence that lacks exactly one byte passes the check, and the byte
at `sourceEnd` is read; a sequence that lacks more is reported.

## Main results

* `run_sequences`: what the decoder does with whole sequences in front.
* `staysInside_iff`: the decoder stays inside its buffers exactly if it does not come to a sequence
  that lacks one byte.
-/

namespace Darwin.Hfs

open List

section Accesses

/-- An access of a conversion to one of its buffers. -/
inductive Access where
  | read (index : ℕ)
  | write (index : ℕ)
  deriving DecidableEq, Repr

/-- The accesses of `ConvertUTF8toUTF16`, from these places in the source and in the target on. -/
def convertAccesses (beyond : UInt8) (room source_index target_index : ℕ) :
    List UInt8 → List Access
  | [] => []
  | byte :: source =>
    let extra := bytesFromUTF8 byte
    let lead := Access.read source_index
    if source.length + 1 < extra then [lead]
    else
      let reads := (List.range (extra + 1)).map fun i => Access.read (source_index + i)
      let writes (units : List UInt16) :=
        (List.range units.length).map fun i => Access.write (target_index + i)
      match writeChar room (decodeChar beyond byte source) with
      | (.ok, units) =>
        lead :: (reads ++ writes units ++
          convertAccesses beyond (room - units.length) (source_index + (extra + 1))
            (target_index + units.length) (source.drop extra))
      | (_, units) => lead :: (reads ++ writes units)
termination_by source => source.length
decreasing_by
  rw [length_drop, length_cons]
  exact Nat.lt_succ_of_le (Nat.sub_le _ _)

/-- The number of units that a character takes in the target. -/
def unitsNeeded (ch : ℕ) : ℕ :=
  if ch ≤ 0x0000FFFF then
    let ch := if ch = 0x3A then 0x2F else ch
    if (decomposer (UInt16.ofNat ch)).2 = 0 then 1 else 2
  else if 0x0010FFFF < ch then 1
  else 2

/-- The bytes are whole sequences, and their characters take this many units. -/
inductive Sequences : List UInt8 → ℕ → Prop
  | nil : Sequences [] 0
  | cons {byte : UInt8} {bytes rest : List UInt8} {units : ℕ} :
      bytes.length = bytesFromUTF8 byte → Sequences rest units →
        Sequences (byte :: bytes ++ rest) (unitsNeeded (decodeChar 0 byte bytes) + units)

/-- The source ends in a sequence that lacks one byte, and what is before it fits in the target. -/
def LacksOneByte (room : ℕ) (source : List UInt8) : Prop :=
  ∃ before byte rest units, source = before ++ byte :: rest ∧ Sequences before units ∧
    units ≤ room ∧ bytesFromUTF8 byte = rest.length + 1

/-- The decoder stays inside its buffers, and reports a last sequence whose first byte announces
more bytes than remain, once it comes to it. -/
structure StaysInside (beyond : UInt8) (room : ℕ) (source : List UInt8) : Prop where
  reads : ∀ i, Access.read i ∈ convertAccesses beyond room 0 0 source → i < source.length
  writes : ∀ i, Access.write i ∈ convertAccesses beyond room 0 0 source → i < room
  moved : (convertUTF8toUTF16 beyond room source).consumed ≤ source.length
  truncated : ∀ before byte rest units, source = before ++ byte :: rest →
    Sequences before units → units ≤ room → rest.length + 1 < bytesFromUTF8 byte + 1 →
      (convertUTF8toUTF16 beyond room source).result = .sourceExhausted

end Accesses

section Characters

variable {beyond byte : UInt8} {room ch extra : ℕ} {bytes rest source : List UInt8}

/-- A character fits exactly if there is room for its units. -/
theorem writeChar_of_fits (fits : unitsNeeded ch ≤ room) :
    ∃ units, writeChar room ch = (.ok, units) ∧ units.length = unitsNeeded ch := by
  unfold unitsNeeded at *
  unfold writeChar
  dsimp only at *
  split_ifs at * <;> first | omega | exact ⟨_, rfl, rfl⟩

theorem writeChar_of_not_fits (short : room < unitsNeeded ch) :
    ∃ units, writeChar room ch = (.targetExhausted, units) ∧ units.length ≤ room := by
  unfold unitsNeeded at *
  unfold writeChar
  dsimp only at *
  split_ifs at * <;> first | omega | exact ⟨_, rfl, Nat.zero_le _⟩ | exact ⟨_, rfl, by simp; omega⟩

theorem gatherBytes_append (enough : extra < bytes.length) :
    gatherBytes beyond extra ch (bytes ++ rest) = gatherBytes 0 extra ch bytes := by
  induction extra generalizing ch bytes with
  | zero =>
    cases bytes with
    | nil => exact absurd enough (Nat.not_lt_zero _)
    | cons byte bytes => rfl
  | succ extra ih =>
    cases bytes with
    | nil => exact absurd enough (Nat.not_lt_zero _)
    | cons byte bytes => exact ih (Nat.lt_of_succ_lt_succ enough)

/-- A whole sequence is decoded from its own bytes. -/
theorem decodeChar_append (whole : bytes.length = bytesFromUTF8 byte) :
    decodeChar beyond byte (bytes ++ rest) = decodeChar 0 byte bytes := by
  have enough : bytesFromUTF8 byte < (byte :: bytes).length := by
    rw [length_cons, whole]
    exact Nat.lt_succ_self _
  unfold decodeChar
  dsimp only
  rw [← cons_append, gatherBytes_append enough]

end Characters

section Runs

variable {beyond byte : UInt8} {room units source_index target_index i : ℕ}
  {before rest source : List UInt8}

/-- Whole sequences in front are decoded, and the rest is decoded after them. -/
theorem run_sequences (sequences : Sequences before units) (fits : units ≤ room) :
    ∃ target : List UInt16, convertUTF8toUTF16 beyond room (before ++ rest) =
      .after target before.length (convertUTF8toUTF16 beyond (room - units) rest) := by
  induction sequences generalizing room with
  | nil =>
    refine ⟨[], ?_⟩
    rw [nil_append, Conversion.after, nil_append, length_nil, zero_add, Nat.sub_zero]
  | @cons byte bytes before units whole later ih =>
    have own : unitsNeeded (decodeChar 0 byte bytes) ≤ room := by omega
    obtain ⟨first, written, length⟩ := writeChar_of_fits own
    have others : units ≤ room - first.length := by omega
    obtain ⟨target, run⟩ := ih others
    have enough : ¬ (bytes ++ (before ++ rest)).length + 1 < bytesFromUTF8 byte := by
      rw [length_append]
      omega
    have left : (bytes ++ (before ++ rest)).drop (bytesFromUTF8 byte) = before ++ rest := by
      rw [← whole, drop_left]
    have room_left : room - first.length - units =
        room - (unitsNeeded (decodeChar 0 byte bytes) + units) := by omega
    have bytes_moved : bytesFromUTF8 byte + 1 + before.length =
        (byte :: bytes ++ before).length := by
      rw [length_append, length_cons, whole]
    refine ⟨first ++ target, ?_⟩
    rw [append_assoc, cons_append, convertUTF8toUTF16]
    rw [if_neg enough, decodeChar_append whole, written]
    dsimp only
    rw [left, run, room_left]
    simp only [Conversion.after, append_assoc, ← bytes_moved, add_assoc]

/-- A sequence that lacks one byte is taken for whole, and the source pointer moves past the end. -/
theorem moved_of_lacks_one (lacks : bytesFromUTF8 byte = rest.length + 1) :
    (convertUTF8toUTF16 beyond room (byte :: rest)).consumed = rest.length + 2 := by
  have enough : ¬ rest.length + 1 < bytesFromUTF8 byte := by omega
  have none_left : rest.drop (bytesFromUTF8 byte) = [] := by
    apply drop_eq_nil_of_le
    omega
  rw [convertUTF8toUTF16]
  rw [if_neg enough, none_left]
  split
  · rw [convertUTF8toUTF16, Conversion.after]
    dsimp only
    omega
  · dsimp only
    omega

/-- A sequence that lacks more than one byte is reported. -/
theorem result_of_lacks_more (lacks : rest.length + 1 < bytesFromUTF8 byte) :
    (convertUTF8toUTF16 beyond room (byte :: rest)).result = .sourceExhausted := by
  rw [convertUTF8toUTF16]
  rw [if_pos lacks]

/-- No sequence that lacks one byte comes later if none does from the start on. -/
theorem LacksOneByte.later (enough : bytesFromUTF8 byte ≤ source.length)
    (fits : unitsNeeded (decodeChar beyond byte source) ≤ room)
    (lacks : LacksOneByte (room - unitsNeeded (decodeChar beyond byte source))
      (source.drop (bytesFromUTF8 byte))) : LacksOneByte room (byte :: source) := by
  obtain ⟨before, last, rest, units, split, sequences, fit, announced⟩ := lacks
  have whole : (source.take (bytesFromUTF8 byte)).length = bytesFromUTF8 byte :=
    length_take_of_le enough
  have own : decodeChar beyond byte source =
      decodeChar 0 byte (source.take (bytesFromUTF8 byte)) := by
    have front : decodeChar beyond byte
        (source.take (bytesFromUTF8 byte) ++ source.drop (bytesFromUTF8 byte)) =
        decodeChar 0 byte (source.take (bytesFromUTF8 byte)) := decodeChar_append whole
    rw [← front, take_append_drop]
  refine ⟨byte :: source.take (bytesFromUTF8 byte) ++ before, last, rest, _, ?_,
    .cons whole sequences, ?_, announced⟩
  · rw [append_assoc, ← split, cons_append, take_append_drop]
  · rw [← own]
    omega

theorem whole_of_inside (mem : ¬ LacksOneByte room (byte :: source))
    (enough : ¬ source.length + 1 < bytesFromUTF8 byte) : bytesFromUTF8 byte ≤ source.length := by
  by_contra lacks
  have last : bytesFromUTF8 byte = source.length + 1 := by omega
  exact mem ⟨[], byte, source, 0, rfl, .nil, Nat.zero_le _, last⟩

theorem later_of_inside {units : List UInt16} (mem : ¬ LacksOneByte room (byte :: source))
    (whole : bytesFromUTF8 byte ≤ source.length)
    (written : writeChar room (decodeChar beyond byte source) = (.ok, units)) :
    ¬ LacksOneByte (room - units.length) (source.drop (bytesFromUTF8 byte)) := by
  have fits : unitsNeeded (decodeChar beyond byte source) ≤ room := by
    by_contra short
    obtain ⟨_, other, -⟩ := writeChar_of_not_fits (Nat.lt_of_not_le short)
    rw [written] at other
    cases (Prod.mk.inj other).1
  obtain ⟨_, same, length⟩ := writeChar_of_fits fits
  rw [written] at same
  rw [(Prod.mk.inj same).2, length]
  exact fun lacks => mem (lacks.later whole fits)

/-- Without a sequence that lacks one byte, the source is not left. -/
theorem accesses_read (mem : ¬ LacksOneByte room source)
    (access : Access.read i ∈ convertAccesses beyond room source_index target_index source) :
    i < source_index + source.length := by
  induction room, source_index, target_index, source using convertAccesses.induct beyond with
  | case1 =>
    rw [convertAccesses] at access
    cases access
  | case2 room source_index target_index byte source extra short =>
    rw [convertAccesses, if_pos short, mem_singleton] at access
    obtain rfl := Access.read.inj access
    rw [length_cons]
    omega
  | case3 room source_index target_index byte source extra enough units written ih =>
    have whole := whole_of_inside mem enough
    rw [convertAccesses, if_neg enough] at access
    rw [written] at access
    simp only [mem_cons, mem_append, mem_map, mem_range] at access
    rw [length_cons]
    rcases access with first | (⟨j, bound, same⟩ | ⟨j, -, other⟩) | later
    · obtain rfl := Access.read.inj first
      omega
    · obtain rfl := Access.read.inj same
      omega
    · cases other
    have bound := ih (later_of_inside mem whole written) later
    rw [length_drop] at bound
    omega
  | case4 room source_index target_index byte source extra enough result units written failed =>
    have whole := whole_of_inside mem enough
    rw [convertAccesses, if_neg enough] at access
    dsimp only at access
    rw [failed] at access
    simp only [mem_cons, mem_append, mem_map, mem_range] at access
    rw [length_cons]
    rcases access with first | ⟨j, bound, same⟩ | ⟨j, -, other⟩
    · obtain rfl := Access.read.inj first
      omega
    · obtain rfl := Access.read.inj same
      omega
    · cases other

/-- The units that are written of a character are at most those there is room for. -/
theorem writeChar_length_le {result : ConversionResult} {target : List UInt16} {ch : ℕ}
    (written : writeChar room ch = (result, target)) : target.length ≤ room := by
  rcases lt_or_ge room (unitsNeeded ch) with short | fits
  · obtain ⟨_, same, length⟩ := writeChar_of_not_fits short
    rw [written] at same
    rw [(Prod.mk.inj same).2]
    exact length
  · obtain ⟨_, same, length⟩ := writeChar_of_fits fits
    rw [written] at same
    rw [(Prod.mk.inj same).2, length]
    exact fits

/-- The target is never left. -/
theorem accesses_write
    (access : Access.write i ∈ convertAccesses beyond room source_index target_index source) :
    i < target_index + room := by
  induction room, source_index, target_index, source using convertAccesses.induct beyond with
  | case1 =>
    rw [convertAccesses] at access
    cases access
  | case2 room source_index target_index byte source extra short =>
    rw [convertAccesses, if_pos short, mem_singleton] at access
    cases access
  | case3 room source_index target_index byte source extra enough units written ih =>
    have length := writeChar_length_le written
    rw [convertAccesses, if_neg enough] at access
    rw [written] at access
    simp only [mem_cons, mem_append, mem_map, mem_range] at access
    rcases access with other | (⟨j, -, other⟩ | ⟨j, bound, same⟩) | later
    · cases other
    · cases other
    · obtain rfl := Access.write.inj same
      omega
    · have bound := ih later
      omega
  | case4 room source_index target_index byte source extra enough result units written failed =>
    have length := writeChar_length_le failed
    rw [convertAccesses, if_neg enough] at access
    dsimp only at access
    rw [failed] at access
    simp only [mem_cons, mem_append, mem_map, mem_range] at access
    rcases access with other | ⟨j, -, other⟩ | ⟨j, bound, same⟩
    · cases other
    · cases other
    · obtain rfl := Access.write.inj same
      omega

/-- Without a sequence that lacks one byte, the source pointer does not move past the end. -/
theorem moved_le (mem : ¬ LacksOneByte room source) :
    (convertUTF8toUTF16 beyond room source).consumed ≤ source.length := by
  induction room, source using convertUTF8toUTF16.induct beyond with
  | case1 =>
    rw [convertUTF8toUTF16]
    exact Nat.zero_le _
  | case2 room byte source extra short =>
    rw [convertUTF8toUTF16, if_pos short]
    exact Nat.zero_le _
  | case3 room byte source extra enough units written ih =>
    have whole := whole_of_inside mem enough
    have bound : (convertUTF8toUTF16 beyond (room - units.length)
        (source.drop (bytesFromUTF8 byte))).consumed ≤
          (source.drop (bytesFromUTF8 byte)).length :=
      ih (later_of_inside mem whole written)
    rw [convertUTF8toUTF16, if_neg enough, written]
    rw [length_drop] at bound
    dsimp only [Conversion.after]
    rw [length_cons]
    omega
  | case4 room byte source extra enough result units written failed =>
    have whole := whole_of_inside mem enough
    rw [convertUTF8toUTF16, if_neg enough, failed]
    rw [length_cons]
    have last : bytesFromUTF8 byte + 1 ≤ source.length + 1 := Nat.succ_le_succ whole
    cases result with
    | ok => exact (written rfl).elim
    | sourceExhausted => exact last
    | targetExhausted => exact last

end Runs

section Bounds

/-- The decoder stays inside its buffers exactly if it does not come to a sequence that lacks just
its last byte. -/
theorem staysInside_iff (beyond : UInt8) (room : ℕ) (source : List UInt8) :
    StaysInside beyond room source ↔ ¬ LacksOneByte room source := by
  constructor
  · rintro mem ⟨before, byte, rest, units, rfl, sequences, fits, lacks⟩
    obtain ⟨target, run⟩ := @run_sequences beyond _ _ _ (byte :: rest) sequences fits
    have moved := mem.moved
    rw [run, Conversion.after, moved_of_lacks_one lacks, length_append, length_cons] at moved
    dsimp only at moved
    omega
  · intro mem
    refine ⟨?_, ?_, moved_le mem, ?_⟩
    · intro i access
      have bound := accesses_read mem access
      omega
    · intro i access
      have bound := accesses_write access
      omega
    rintro before byte rest units rfl sequences fits announced
    obtain ⟨target, run⟩ := @run_sequences beyond _ _ _ (byte :: rest) sequences fits
    rw [run, Conversion.after]
    apply result_of_lacks_more
    by_contra enough
    have lacks : bytesFromUTF8 byte = rest.length + 1 := by omega
    exact mem ⟨before, byte, rest, units, rfl, sequences, fits, lacks⟩

/-- A lone first byte of two is taken for a whole sequence. -/
theorem not_staysInside_lone_byte : ¬ StaysInside 0 64 [0xC3] := by
  intro mem
  have moved := mem.moved
  have lacks : bytesFromUTF8 0xC3 = ([] : List UInt8).length + 1 := by decide
  rw [moved_of_lacks_one lacks] at moved
  exact absurd moved (by decide)

end Bounds

end Darwin.Hfs
