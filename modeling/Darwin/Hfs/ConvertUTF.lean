import Mathlib

/-!
# The UTF-16 / UTF-8 name codec

`Unicode/ConvertUTF.c` converts file names between the UTF-16 of an HFS Plus volume and the UTF-8 of
the VFS layer.  A slash inside a volume name becomes a colon on the way out and a colon becomes a
slash on the way in; on the way in every unit is also decomposed.  Pointers are modelled by the
units that remain before `sourceEnd` and by the room that remains before `targetEnd`; a conversion
reports how far it moved both pointers.

## Main results

* `convertUTF16toUTF8_of_fits`: a sufficient target buffer receives the whole encoding.
* `codec_round_trip`: decoding the encoding of a decomposed, colon-free name returns the name.
-/

namespace Darwin.Hfs

open List

/-- The outcome of a conversion. -/
inductive ConversionResult where
  | ok
  | sourceExhausted
  | targetExhausted
  deriving DecidableEq, Repr

/-- What a conversion leaves behind: its result, how many source units `*sourceStart` moved, and
the units written from `*targetStart` on. -/
structure Conversion (τ : Type) where
  result : ConversionResult
  consumed : ℕ
  target : List τ
  deriving DecidableEq, Repr

/-- A conversion that first moves over `count` source units and writes `units`. -/
def Conversion.after {τ : Type} (units : List τ) (count : ℕ) (rest : Conversion τ) :
    Conversion τ :=
  { rest with consumed := count + rest.consumed, target := units ++ rest.target }

/-! ## From UTF-16 to UTF-8 -/

/-- Read one character: a slash is replaced by a colon, and a high surrogate takes the next unit
with it when that unit is a low surrogate.  Returns the character and the remaining units. -/
def readChar (unit : UInt16) (source : List UInt16) : ℕ × List UInt16 :=
  let ch := unit.toNat
  if ch = 0x2F then
    (0x3A, source)
  else if 0xD800 ≤ ch ∧ ch ≤ 0xDBFF then
    match source with
    | [] => (ch, [])
    | unit2 :: rest =>
      let ch2 := unit2.toNat
      if 0xDC00 ≤ ch2 ∧ ch2 ≤ 0xDFFF then
        (((ch - 0xD800) <<< 10) + (ch2 - 0xDC00) + 0x0010000, rest)
      else (ch, unit2 :: rest)
  else (ch, source)

/-- The number of bytes of a character, and the character to write: one beyond 31 bits is replaced
by the replacement character, in two bytes. -/
def bytesToWrite (ch : ℕ) : ℕ × ℕ :=
  if ch < 0x80 then (1, ch)
  else if ch < 0x800 then (2, ch)
  else if ch < 0x10000 then (3, ch)
  else if ch < 0x200000 then (4, ch)
  else if ch < 0x4000000 then (5, ch)
  else if ch ≤ 0x7FFFFFFF then (6, ch)
  else (2, 0x0000FFFD)

/-- The marks of a first byte, by the number of bytes. -/
def firstByteMark : Array ℕ := #[0x00, 0x00, 0xC0, 0xE0, 0xF0, 0xF8, 0xFC]

/-- The fall-through switch of the encoder, which fills the bytes from the last to the first. -/
def fillBytes (mark : ℕ) : ℕ → ℕ → List UInt8 → List UInt8
  | 0, _, written => written
  | 1, ch, written => UInt8.ofNat (ch ||| mark) :: written
  | count + 2, ch, written =>
    fillBytes mark (count + 1) (ch >>> 6) (UInt8.ofNat ((ch ||| 0x80) &&& 0xBF) :: written)

/-- The bytes written for a character. -/
def encodeChar (ch : ℕ) : List UInt8 :=
  let (count, ch) := bytesToWrite ch
  fillBytes (firstByteMark.getD count 0) count ch []

theorem readChar_length_le (unit : UInt16) (source : List UInt16) :
    (readChar unit source).2.length ≤ source.length := by
  unfold readChar
  dsimp only
  split_ifs
  · exact le_rfl
  · cases source with
    | nil => exact le_rfl
    | cons unit2 rest =>
      dsimp only
      split_ifs
      · exact Nat.le_succ _
      · exact le_rfl
  · exact le_rfl

/-- `ConvertUTF16toUTF8` into a target of `room` bytes.  When a character does not fit, the source
pointer has already moved over it. -/
def convertUTF16toUTF8 (room : ℕ) : List UInt16 → Conversion UInt8
  | [] => ⟨.ok, 0, []⟩
  | unit :: source =>
    let ch := (readChar unit source).1
    let rest := (readChar unit source).2
    let moved := source.length + 1 - rest.length
    let count := (bytesToWrite ch).1
    if room < count then ⟨.targetExhausted, moved, []⟩
    else .after (encodeChar ch) moved (convertUTF16toUTF8 (room - count) rest)
termination_by source => source.length
decreasing_by exact Nat.lt_succ_of_le (readChar_length_le unit source)

/-! ## Decomposition -/

/-- First decomposed characters for U+00C0 through U+00FF. -/
def primaryChar : Array UInt16 := #[
  0x41, 0x41, 0x41, 0x41, 0x41, 0x41, 0xC6, 0x43,
  0x45, 0x45, 0x45, 0x45, 0x49, 0x49, 0x49, 0x49,
  0xD0, 0x4E, 0x4F, 0x4F, 0x4F, 0x4F, 0x4F, 0xD7,
  0xD8, 0x55, 0x55, 0x55, 0x55, 0x59, 0xDE, 0xDF,
  0x61, 0x61, 0x61, 0x61, 0x61, 0x61, 0xE6, 0x63,
  0x65, 0x65, 0x65, 0x65, 0x69, 0x69, 0x69, 0x69,
  0xF0, 0x6E, 0x6F, 0x6F, 0x6F, 0x6F, 0x6F, 0xF7,
  0xF8, 0x75, 0x75, 0x75, 0x75, 0x79, 0xFE, 0x79]

/-- Combining characters for U+00C0 through U+00FF, less `0x0300`. -/
def combiningChar : Array UInt16 := #[
  0x00, 0x01, 0x02, 0x03, 0x08, 0x0A, 0xFF, 0x27,
  0x00, 0x01, 0x02, 0x08, 0x00, 0x01, 0x02, 0x08,
  0xFF, 0x03, 0x00, 0x01, 0x02, 0x03, 0x08, 0xFF,
  0xFF, 0x00, 0x01, 0x02, 0x08, 0x01, 0xFF, 0xFF,
  0x00, 0x01, 0x02, 0x03, 0x08, 0x0A, 0xFF, 0x27,
  0x00, 0x01, 0x02, 0x08, 0x00, 0x01, 0x02, 0x08,
  0xFF, 0x03, 0x00, 0x01, 0x02, 0x03, 0x08, 0xFF,
  0xFF, 0x00, 0x01, 0x02, 0x08, 0x01, 0xFF, 0x08]

/-- The decomposable characters of U+3000 through U+30FF, one bit each from the most significant
bit of the first word on. -/
def cjkDecompBitmap : Array ℕ := #[
  0x00000000, 0x00000000, 0x000AAAAA, 0xA540DB6C,
  0x00000802, 0x000AAAAA, 0xA540DB6C, 0x000009E2]

/-- `IS_DECOMPOSABLE` over the CJK bitmap. -/
def isDecomposable (unicodeVal : ℕ) : Bool :=
  (cjkDecompBitmap.getD (unicodeVal / 32) 0).testBit (31 - unicodeVal % 32)

/-- The cases of the CJK switch: character, first decomposed character, combining character. -/
def cjkCases : List (UInt16 × UInt16 × UInt16) := [
  (0x3071, 0x306F, 0x309A),  -- HIRAGANA LETTER PA
  (0x3074, 0x3072, 0x309A),  -- HIRAGANA LETTER PI
  (0x3077, 0x3075, 0x309A),  -- HIRAGANA LETTER PU
  (0x307A, 0x3078, 0x309A),  -- HIRAGANA LETTER PE
  (0x307D, 0x307B, 0x309A),  -- HIRAGANA LETTER PO
  (0x3094, 0x3046, 0x3099),  -- HIRAGANA LETTER VU
  (0x30D1, 0x30CF, 0x309A),  -- KATAKANA LETTER PA
  (0x30D4, 0x30D2, 0x309A),  -- KATAKANA LETTER PI
  (0x30D7, 0x30D5, 0x309A),  -- KATAKANA LETTER PU
  (0x30DA, 0x30D8, 0x309A),  -- KATAKANA LETTER PE
  (0x30DD, 0x30DB, 0x309A),  -- KATAKANA LETTER PO
  (0x30F4, 0x30A6, 0x3099),  -- KATAKANA LETTER VU
  (0x30F7, 0x30EF, 0x3099),  -- KATAKANA LETTER VA
  (0x30F8, 0x30F0, 0x3099),  -- KATAKANA LETTER VI
  (0x30F9, 0x30F1, 0x3099),  -- KATAKANA LETTER VE
  (0x30FA, 0x30F2, 0x3099)]  -- KATAKANA LETTER VO

/-- `Decomposer`: the first decomposed character, and the combining character or zero. -/
def decomposer (srcChar : UInt16) : UInt16 × UInt16 :=
  if srcChar ≤ 0x00FF ∧ 0x00C0 ≤ srcChar then
    let dstChar := primaryChar.getD (srcChar - 0x00C0).toNat 0
    if dstChar ≤ 0x7A then
      (dstChar, 0x0300 + combiningChar.getD (srcChar - 0x00C0).toNat 0)
    else (dstChar, 0)
  else if 0x3000 < srcChar ∧ srcChar < 0x3100 ∧ isDecomposable (srcChar - 0x3000).toNat then
    (cjkCases.lookup srcChar).getD (srcChar - 1, 0x3099)
  else (srcChar, 0)

/-! ## From UTF-8 to UTF-16 -/

/-- The rows of `bytesFromUTF8`, one hexadecimal digit for each of the 32 entries of a row. -/
def bytesFromUTF8Rows : Array ℕ := #[
  0x00000000000000000000000000000000,
  0x00000000000000000000000000000000,
  0x00000000000000000000000000000000,
  0x00000000000000000000000000000000,
  0x00000000000000000000000000000000,
  0x00000000000000000000000000000000,
  0x11111111111111111111111111111111,
  0x22222222222222223333333344445555]

/-- The number of bytes that follow a first byte. -/
def bytesFromUTF8 (byte : UInt8) : ℕ :=
  bytesFromUTF8Rows.getD (byte.toNat / 32) 0 >>> (4 * (31 - byte.toNat % 32)) % 16

/-- What the byte marks add up to in a character of `extra + 1` bytes. -/
def offsetsFromUTF8 : Array ℕ :=
  #[0x00000000, 0x00003080, 0x000E2080, 0x03C82080, 0xFA082080, 0x82082080]

/-- The fall-through switch of the decoder over a 32-bit accumulator.  The bound it runs under
admits one read past `sourceEnd`, which sees the byte `beyond`. -/
def gatherBytes (beyond : UInt8) : ℕ → ℕ → List UInt8 → ℕ
  | 0, ch, source => (ch + (source.headD beyond).toNat) % 2 ^ 32
  | extra + 1, ch, source =>
    gatherBytes beyond extra ((((ch + (source.headD beyond).toNat) % 2 ^ 32) <<< 6) % 2 ^ 32)
      source.tail

/-- The character whose first byte is `byte`, with the offset of its length taken off. -/
def decodeChar (beyond byte : UInt8) (source : List UInt8) : ℕ :=
  let extra := bytesFromUTF8 byte
  (gatherBytes beyond extra 0 (byte :: source) + 2 ^ 32 - offsetsFromUTF8.getD extra 0) % 2 ^ 32

/-- The target writes for one decoded character: whether they all fit, and the units written. -/
def writeChar (room ch : ℕ) : ConversionResult × List UInt16 :=
  if room = 0 then (.targetExhausted, [])
  else if ch ≤ 0x0000FFFF then
    let ch := if ch = 0x3A then 0x2F else ch
    let decomposed := decomposer (UInt16.ofNat ch)
    if decomposed.2 = 0 then (.ok, [decomposed.1])
    else if room = 1 then (.targetExhausted, [decomposed.1])
    else (.ok, [decomposed.1, decomposed.2])
  else if 0x0010FFFF < ch then (.ok, [0xFFFD])
  else if room = 1 then (.targetExhausted, [])
  else
    let ch := ch - 0x0010000
    (.ok, [UInt16.ofNat ((ch >>> 10) + 0xD800), UInt16.ofNat ((ch &&& 0x3FF) + 0xDC00)])

/-- `ConvertUTF8toUTF16` into a target of `room` units; `beyond` is the byte stored at
`sourceEnd`. -/
def convertUTF8toUTF16 (beyond : UInt8) (room : ℕ) : List UInt8 → Conversion UInt16
  | [] => ⟨.ok, 0, []⟩
  | byte :: source =>
    let extra := bytesFromUTF8 byte
    if source.length + 1 < extra then ⟨.sourceExhausted, 0, []⟩
    else
      match writeChar room (decodeChar beyond byte source) with
      | (.ok, units) =>
        .after units (extra + 1)
          (convertUTF8toUTF16 beyond (room - units.length) (source.drop extra))
      | (result, units) => ⟨result, extra + 1, units⟩
termination_by source => source.length
decreasing_by
  rw [length_drop, length_cons]
  exact Nat.lt_succ_of_le (Nat.sub_le _ _)

/-! ## One character -/

private theorem trailing_byte (ch : ℕ) : (ch ||| 0x80) &&& 0xBF = 0x80 + ch % 64 := by
  have table : ∀ low < 256, (low ||| 0x80) &&& 0xBF = 0x80 + low % 64 := by decide +kernel
  have mask : (0xBF : ℕ) = 0xFF &&& 0xBF := by decide
  have byte : ∀ x : ℕ, x &&& 0xFF = x % 256 := fun x => Nat.and_two_pow_sub_one_eq_mod x 8
  have low : (ch ||| 0x80) % 256 = ch % 256 ||| 0x80 := Nat.or_mod_two_pow (n := 8)
  rw [mask, ← Nat.and_assoc, byte, low, table _ (Nat.mod_lt _ (by decide))]
  omega

private theorem first_byte_two : ∀ high < 32, high ||| 0xC0 = 0xC0 + high := by decide

private theorem first_byte_three : ∀ high < 16, high ||| 0xE0 = 0xE0 + high := by decide

private theorem first_byte_four : ∀ high < 8, high ||| 0xF0 = 0xF0 + high := by decide

variable {ch n room : ℕ} {source : List UInt16}

private theorem encodeChar_one (bound : ch < 0x80) :
    encodeChar ch = [UInt8.ofNat ch] := by
  simp [encodeChar, bytesToWrite, bound, fillBytes, firstByteMark]

private theorem encodeChar_two (lower : 0x80 ≤ ch) (bound : ch < 0x800) :
    encodeChar ch = [UInt8.ofNat (0xC0 + ch / 64), UInt8.ofNat (0x80 + ch % 64)] := by
  have first := first_byte_two (ch / 64) (by omega)
  simp [encodeChar, bytesToWrite, not_lt.mpr lower, bound, fillBytes, firstByteMark,
    Nat.shiftRight_eq_div_pow, trailing_byte, first]

private theorem encodeChar_three (lower : 0x800 ≤ ch) (bound : ch < 0x10000) :
    encodeChar ch = [UInt8.ofNat (0xE0 + ch / 4096), UInt8.ofNat (0x80 + ch / 64 % 64),
      UInt8.ofNat (0x80 + ch % 64)] := by
  have first := first_byte_three (ch / 4096) (by omega)
  have short : ¬ ch < 0x80 := by omega
  simp [encodeChar, bytesToWrite, short, not_lt.mpr lower, bound, fillBytes, firstByteMark,
    Nat.shiftRight_eq_div_pow, trailing_byte, Nat.div_div_eq_div_mul, first]

private theorem encodeChar_four (lower : 0x10000 ≤ ch) (bound : ch ≤ 0x10FFFF) :
    encodeChar ch = [UInt8.ofNat (0xF0 + ch / 262144), UInt8.ofNat (0x80 + ch / 4096 % 64),
      UInt8.ofNat (0x80 + ch / 64 % 64), UInt8.ofNat (0x80 + ch % 64)] := by
  have first := first_byte_four (ch / 262144) (by omega)
  have one : ¬ ch < 0x80 := by omega
  have two : ¬ ch < 0x800 := by omega
  have four : ch < 0x200000 := by omega
  simp [encodeChar, bytesToWrite, one, two, not_lt.mpr lower, four, fillBytes, firstByteMark,
    Nat.shiftRight_eq_div_pow, trailing_byte, Nat.div_div_eq_div_mul, first]

private theorem bytesFromUTF8_table : ∀ byte < 256, bytesFromUTF8 (UInt8.ofNat byte) =
    if byte < 0xC0 then 0 else if byte < 0xE0 then 1 else if byte < 0xF0 then 2
    else if byte < 0xF8 then 3 else if byte < 0xFC then 4 else 5 := by
  decide +kernel

private theorem toNat_ofNat_byte (bound : n < 256) : (UInt8.ofNat n).toNat = n := by
  rw [UInt8.toNat_ofNat']
  exact Nat.mod_eq_of_lt bound

private theorem decodeChar_one (bound : ch < 0x80) (beyond : UInt8)
    (rest : List UInt8) : decodeChar beyond (UInt8.ofNat ch) rest = ch := by
  have first := toNat_ofNat_byte (n := ch) (by omega)
  have extra : bytesFromUTF8 (UInt8.ofNat ch) = 0 := by
    rw [bytesFromUTF8_table ch (by omega), if_pos (by omega)]
  have offset : offsetsFromUTF8.getD 0 0 = 0 := rfl
  simp only [decodeChar, first, extra, offset, gatherBytes, headD_cons]
  omega

private theorem decodeChar_two (bound : ch < 0x800) (beyond : UInt8) (rest : List UInt8) :
    decodeChar beyond (UInt8.ofNat (0xC0 + ch / 64)) (UInt8.ofNat (0x80 + ch % 64) :: rest) =
      ch := by
  have first := toNat_ofNat_byte (n := 0xC0 + ch / 64) (by omega)
  have second := toNat_ofNat_byte (n := 0x80 + ch % 64) (by omega)
  have extra : bytesFromUTF8 (UInt8.ofNat (0xC0 + ch / 64)) = 1 := by
    rw [bytesFromUTF8_table _ (by omega), if_neg (by omega), if_pos (by omega)]
  have offset : offsetsFromUTF8.getD 1 0 = 0x3080 := rfl
  simp only [decodeChar, first, extra, offset, gatherBytes, headD_cons, tail_cons,
    second, Nat.shiftLeft_eq]
  omega

private theorem decodeChar_three (bound : ch < 0x10000) (beyond : UInt8) (rest : List UInt8) :
    decodeChar beyond (UInt8.ofNat (0xE0 + ch / 4096))
      (UInt8.ofNat (0x80 + ch / 64 % 64) :: UInt8.ofNat (0x80 + ch % 64) :: rest) = ch := by
  have first := toNat_ofNat_byte (n := 0xE0 + ch / 4096) (by omega)
  have second := toNat_ofNat_byte (n := 0x80 + ch / 64 % 64) (by omega)
  have third := toNat_ofNat_byte (n := 0x80 + ch % 64) (by omega)
  have extra : bytesFromUTF8 (UInt8.ofNat (0xE0 + ch / 4096)) = 2 := by
    rw [bytesFromUTF8_table _ (by omega), if_neg (by omega), if_neg (by omega), if_pos (by omega)]
  have offset : offsetsFromUTF8.getD 2 0 = 0xE2080 := rfl
  simp only [decodeChar, first, extra, offset, gatherBytes, headD_cons, tail_cons,
    second, third, Nat.shiftLeft_eq]
  omega

private theorem decodeChar_four (bound : ch ≤ 0x10FFFF) (beyond : UInt8) (rest : List UInt8) :
    decodeChar beyond (UInt8.ofNat (0xF0 + ch / 262144))
      (UInt8.ofNat (0x80 + ch / 4096 % 64) :: UInt8.ofNat (0x80 + ch / 64 % 64) ::
        UInt8.ofNat (0x80 + ch % 64) :: rest) = ch := by
  have first := toNat_ofNat_byte (n := 0xF0 + ch / 262144) (by omega)
  have second := toNat_ofNat_byte (n := 0x80 + ch / 4096 % 64) (by omega)
  have third := toNat_ofNat_byte (n := 0x80 + ch / 64 % 64) (by omega)
  have fourth := toNat_ofNat_byte (n := 0x80 + ch % 64) (by omega)
  have extra : bytesFromUTF8 (UInt8.ofNat (0xF0 + ch / 262144)) = 3 := by
    rw [bytesFromUTF8_table _ (by omega), if_neg (by omega), if_neg (by omega),
      if_neg (by omega), if_pos (by omega)]
  have offset : offsetsFromUTF8.getD 3 0 = 0x3C82080 := rfl
  simp only [decodeChar, first, extra, offset, gatherBytes, headD_cons, tail_cons,
    second, third, fourth, Nat.shiftLeft_eq]
  omega

/-- The decoder's view of an encoded character: its first byte announces the others, and gathering
them gives the character back. -/
theorem decodeChar_encodeChar (bound : ch ≤ 0x10FFFF) :
    ∃ byte tail, encodeChar ch = byte :: tail ∧ bytesFromUTF8 byte = tail.length ∧
      ∀ beyond rest, decodeChar beyond byte (tail ++ rest) = ch := by
  rcases lt_or_ge ch 0x80 with one | one
  · refine ⟨_, _, encodeChar_one one, ?_, decodeChar_one one⟩
    rw [bytesFromUTF8_table _ (by omega), if_pos (by omega)]
    rfl
  rcases lt_or_ge ch 0x800 with two | two
  · refine ⟨_, _, encodeChar_two one two, ?_, decodeChar_two two⟩
    rw [bytesFromUTF8_table _ (by omega), if_neg (by omega), if_pos (by omega)]
    rfl
  rcases lt_or_ge ch 0x10000 with three | three
  · refine ⟨_, _, encodeChar_three two three, ?_, decodeChar_three three⟩
    rw [bytesFromUTF8_table _ (by omega), if_neg (by omega), if_neg (by omega), if_pos (by omega)]
    rfl
  · refine ⟨_, _, encodeChar_four three bound, ?_, decodeChar_four bound⟩
    rw [bytesFromUTF8_table _ (by omega), if_neg (by omega),
      if_neg (by omega), if_neg (by omega), if_pos (by omega)]
    rfl

/-- The only encoded byte below `0x80` is a character below `0x80` itself, so a slash byte encodes
nothing but a slash. -/
theorem slash_notMem_encodeChar (bound : ch ≤ 0x10FFFF) (notSlash : ch ≠ 0x2F) :
    0x2F ∉ encodeChar ch := by
  have byte : ∀ n < 256, n ≠ 0x2F → (0x2F : UInt8) ≠ UInt8.ofNat n := by
    intro n small differ same
    apply differ
    rw [← toNat_ofNat_byte small, ← same]
    rfl
  have mem : ∀ {first : UInt8} {rest : List UInt8}, 0x2F ≠ first → 0x2F ∉ rest →
      0x2F ∉ first :: rest := by
    intro first rest differ absent found
    rcases mem_cons.mp found with same | later
    · exact differ same
    · exact absent later
  rcases lt_or_ge ch 0x80 with one | one
  · rw [encodeChar_one one]
    exact mem (byte _ (by omega) notSlash) not_mem_nil
  rcases lt_or_ge ch 0x800 with two | two
  · rw [encodeChar_two one two]
    exact mem (byte _ (by omega) (by omega)) (mem (byte _ (by omega) (by omega)) not_mem_nil)
  rcases lt_or_ge ch 0x10000 with three | three
  · rw [encodeChar_three two three]
    exact mem (byte _ (by omega) (by omega)) (mem (byte _ (by omega) (by omega))
      (mem (byte _ (by omega) (by omega)) not_mem_nil))
  rw [encodeChar_four three bound]
  exact mem (byte _ (by omega) (by omega)) (mem (byte _ (by omega) (by omega))
    (mem (byte _ (by omega) (by omega)) (mem (byte _ (by omega) (by omega)) not_mem_nil)))

/-- The encoder reserves exactly the bytes it writes. -/
theorem length_encodeChar (ch : ℕ) : (encodeChar ch).length = (bytesToWrite ch).1 := by
  have fill : ∀ mark count ch written,
      (fillBytes mark (count + 1) ch written).length = count + 1 + written.length := by
    intro mark count
    induction count with
    | zero =>
      intro ch written
      simp only [fillBytes, length_cons]
      omega
    | succ count ih =>
      intro ch written
      rw [fillBytes, ih, length_cons]
      omega
  have positive : 0 < (bytesToWrite ch).1 := by
    unfold bytesToWrite
    split_ifs <;> simp
  obtain ⟨count, same⟩ : ∃ count, (bytesToWrite ch).1 = count + 1 :=
    ⟨_, (Nat.sub_add_cancel positive).symm⟩
  simp only [encodeChar, same, fill, length_nil, add_zero]

/-! ## Whole names -/

/-- The UTF-8 form of a name: the encodings of its characters, with no bound on the target. -/
def encodeUnits : List UInt16 → List UInt8
  | [] => []
  | unit :: source =>
    encodeChar (readChar unit source).1 ++ encodeUnits (readChar unit source).2
termination_by source => source.length
decreasing_by exact Nat.lt_succ_of_le (readChar_length_le unit source)

private theorem bytesToWrite_le_three {ch : ℕ} (bmp : ch < 0x10000) : (bytesToWrite ch).1 ≤ 3 := by
  unfold bytesToWrite
  split_ifs <;> simp

private theorem bytesToWrite_le_six (ch : ℕ) : (bytesToWrite ch).1 ≤ 6 := by
  unfold bytesToWrite
  split_ifs <;> simp

private theorem readChar_size (unit : UInt16) (source : List UInt16) :
    (bytesToWrite (readChar unit source).1).1 + 3 * (readChar unit source).2.length ≤
      3 * (source.length + 1) := by
  have bmp := bytesToWrite_le_three unit.toNat_lt
  unfold readChar
  dsimp only
  split_ifs
  · have colon := @bytesToWrite_le_three 0x3A (by decide)
    dsimp only
    omega
  · cases source with
    | nil => exact bmp
    | cons unit2 rest =>
      dsimp only
      split_ifs
      · have astral := bytesToWrite_le_six
          (((unit.toNat - 0xD800) <<< 10) + (unit2.toNat - 0xDC00) + 0x10000)
        simp only [length_cons]
        omega
      · dsimp only
        omega
  · dsimp only
    omega

/-- Three bytes of target for each unit of a name are always enough. -/
theorem length_encodeUnits_le (source : List UInt16) :
    (encodeUnits source).length ≤ 3 * source.length := by
  induction source using encodeUnits.induct with
  | case1 => simp [encodeUnits]
  | case2 unit source ih =>
    have size := readChar_size unit source
    rw [encodeUnits, length_append, length_encodeChar, length_cons]
    omega

/-- A target that holds the UTF-8 form of a name receives it, and the whole name is consumed. -/
theorem convertUTF16toUTF8_of_fits (fits : (encodeUnits source).length ≤ room) :
    convertUTF16toUTF8 room source = ⟨.ok, source.length, encodeUnits source⟩ := by
  induction source using encodeUnits.induct generalizing room with
  | case1 => simp [convertUTF16toUTF8, encodeUnits]
  | case2 unit source ih =>
    rw [encodeUnits, length_append, length_encodeChar] at fits
    have room_left := @ih (room - (bytesToWrite (readChar unit source).1).1) (by omega)
    have shorter := readChar_length_le unit source
    rw [convertUTF16toUTF8, encodeUnits]
    simp only [if_neg (not_lt.mpr (show (bytesToWrite (readChar unit source).1).1 ≤ room by
      omega)), room_left, Conversion.after, length_cons, Conversion.mk.injEq, and_true,
      true_and]
    omega

private theorem toNat_ofNat_unit (unit : UInt16) (same : n = unit.toNat) :
    UInt16.ofNat n = unit := by
  rw [same, UInt16.ofNat_toNat]

/-- Reading one character of a colon-free, decomposed name and writing it back on the decoding side
restores the units that were read. -/
theorem writeChar_readChar {unit : UInt16} (notColon : unit ≠ 0x3A)
    (decomposed : ∀ c ∈ unit :: source, decomposer c = (c, 0)) :
    ∃ units, unit :: source = units ++ (readChar unit source).2 ∧
      (readChar unit source).1 ≤ 0x10FFFF ∧ (readChar unit source).1 ≠ 0x2F ∧
      ∀ room, units.length ≤ room →
        writeChar room (readChar unit source).1 = (.ok, units) := by
  have small := unit.toNat_lt
  have head := decomposed unit (mem_cons_self ..)
  -- A unit that is neither a slash nor half of a pair is written back as itself.
  have single : unit.toNat ≠ 0x2F → ∀ room, 1 ≤ room →
      writeChar room unit.toNat = (.ok, [unit]) := by
    intro notSlash room positive
    have notColon' : unit.toNat ≠ 0x3A := fun same => notColon (UInt16.toNat_inj.mp same)
    have bmp : unit.toNat ≤ 0xFFFF := by omega
    simp [writeChar, show room ≠ 0 by omega, bmp, notColon', head]
  unfold readChar
  dsimp only
  split_ifs with slash high
  · have same : unit = 0x2F := UInt16.toNat_inj.mp slash
    refine ⟨[unit], rfl, by simp, by simp, fun room positive => ?_⟩
    rw [length_singleton] at positive
    rw [same] at head ⊢
    simp [writeChar, show room ≠ 0 by omega, head]
  · cases source with
    | nil => exact ⟨[unit], rfl, by simp; omega, slash, fun room => single slash room⟩
    | cons unit2 rest =>
      dsimp only
      split_ifs with low
      · refine ⟨[unit, unit2], rfl, ?_, ?_, fun room positive => ?_⟩
        · simp only [Nat.shiftLeft_eq]
          omega
        · simp only [Nat.shiftLeft_eq]
          omega
        rw [length_cons, length_singleton] at positive
        have mask : ∀ x : ℕ, x &&& 0x3FF = x % 1024 :=
          fun x => Nat.and_two_pow_sub_one_eq_mod x 10
        have astral : ¬ (unit.toNat - 0xD800) * 2 ^ 10 + (unit2.toNat - 0xDC00) + 0x10000 ≤
            0xFFFF := by omega
        have valid : ¬ 0x10FFFF <
            (unit.toNat - 0xD800) * 2 ^ 10 + (unit2.toNat - 0xDC00) + 0x10000 := by omega
        simp only [writeChar, Nat.shiftLeft_eq, if_neg (show room ≠ 0 by omega), if_neg astral,
          if_neg valid, if_neg (show room ≠ 1 by omega), Nat.shiftRight_eq_div_pow, mask]
        rw [toNat_ofNat_unit unit (by omega), toNat_ofNat_unit unit2 (by omega)]
      · exact ⟨[unit], rfl, by simp; omega, slash, fun room => single slash room⟩
  · exact ⟨[unit], rfl, by simp; omega, slash, fun room => single slash room⟩

/-- One iteration of the decoder over an encoded character. -/
theorem convertUTF8toUTF16_encodeChar (beyond : UInt8) {units : List UInt16}
    (bound : ch ≤ 0x10FFFF) (written : writeChar room ch = (.ok, units)) (rest : List UInt8) :
    convertUTF8toUTF16 beyond room (encodeChar ch ++ rest) = .after units (encodeChar ch).length
        (convertUTF8toUTF16 beyond (room - units.length) rest) := by
  obtain ⟨byte, tail, encoded, extra, decoded⟩ := decodeChar_encodeChar bound
  rw [encoded, cons_append, convertUTF8toUTF16]
  have enough : ¬ (tail ++ rest).length + 1 < tail.length := by
    rw [length_append]
    omega
  simp only [extra, if_neg enough, decoded, written, drop_left, length_cons]

/-- Decoding the UTF-8 form of a colon-free, decomposed name consumes it and restores the name. -/
theorem convertUTF8toUTF16_encodeUnits (beyond : UInt8)
    (colonFree : 0x3A ∉ source) (decomposed : ∀ c ∈ source, decomposer c = (c, 0))
    (fits : source.length ≤ room) :
    convertUTF8toUTF16 beyond room (encodeUnits source) =
      ⟨.ok, (encodeUnits source).length, source⟩ := by
  induction source using encodeUnits.induct generalizing room with
  | case1 => simp [convertUTF8toUTF16, encodeUnits]
  | case2 unit source ih =>
    have notColon : unit ≠ 0x3A := by
      rintro rfl
      exact colonFree (mem_cons_self ..)
    obtain ⟨units, split, bound, -, written⟩ := writeChar_readChar notColon decomposed
    have split_length : source.length + 1 = units.length + (readChar unit source).2.length := by
      rw [← length_append, ← split, length_cons]
    rw [length_cons] at fits
    have later : ∀ c ∈ (readChar unit source).2, c ∈ unit :: source := by
      intro c mem
      rw [split]
      exact mem_append_right _ mem
    have remaining := @ih (room - units.length)
      (fun found => colonFree (later _ found)) (fun c mem => decomposed c (later c mem))
      (by omega)
    rw [encodeUnits, convertUTF8toUTF16_encodeChar beyond bound (written room (by omega)),
      remaining, Conversion.after, length_append, ← split]

/-- The UTF-8 form of a name never contains a slash byte. -/
theorem slash_notMem_encodeUnits (colonFree : 0x3A ∉ source)
    (decomposed : ∀ c ∈ source, decomposer c = (c, 0)) : 0x2F ∉ encodeUnits source := by
  induction source using encodeUnits.induct with
  | case1 => simp [encodeUnits]
  | case2 unit source ih =>
    have notColon : unit ≠ 0x3A := by
      rintro rfl
      exact colonFree (mem_cons_self ..)
    obtain ⟨units, split, bound, notSlash, -⟩ := writeChar_readChar notColon decomposed
    have later : ∀ c ∈ (readChar unit source).2, c ∈ unit :: source := by
      intro c mem
      rw [split]
      exact mem_append_right _ mem
    rw [encodeUnits, mem_append, not_or]
    exact ⟨slash_notMem_encodeChar bound notSlash,
      ih (fun found => colonFree (later _ found)) (fun c mem => decomposed c (later c mem))⟩

/-- The codec round trip: a colon-free, decomposed name is encoded completely into any target that
holds its UTF-8 form, that form is decoded completely into any target that holds the name, the
result is the name, and no encoded byte is a slash. -/
theorem codec_round_trip (u : List UInt16) (utf8Room utf16Room : ℕ) (beyond : UInt8)
    (colonFree : 0x3A ∉ u) (decomposed : ∀ c ∈ u, decomposer c = (c, 0))
    (utf8Fits : (encodeUnits u).length ≤ utf8Room) (utf16Fits : u.length ≤ utf16Room) :
    ∃ bytes, convertUTF16toUTF8 utf8Room u = ⟨.ok, u.length, bytes⟩ ∧
      convertUTF8toUTF16 beyond utf16Room bytes = ⟨.ok, bytes.length, u⟩ ∧ 0x2F ∉ bytes :=
  ⟨encodeUnits u, convertUTF16toUTF8_of_fits utf8Fits,
    convertUTF8toUTF16_encodeUnits beyond colonFree decomposed utf16Fits,
    slash_notMem_encodeUnits colonFree decomposed⟩

/-- The round trip of a name with a slash, a surrogate pair and an unpaired high surrogate. -/
theorem codec_round_trip_sample :
    ∃ bytes, convertUTF16toUTF8 64 [0x61, 0x2F, 0xD83D, 0xDE00, 0x4E2D, 0xD800] = ⟨.ok, 6, bytes⟩ ∧
      convertUTF8toUTF16 0 6 bytes =
        ⟨.ok, bytes.length, [0x61, 0x2F, 0xD83D, 0xDE00, 0x4E2D, 0xD800]⟩ ∧
      0x2F ∉ bytes :=
  codec_round_trip [0x61, 0x2F, 0xD83D, 0xDE00, 0x4E2D, 0xD800] 64 6 0 (by decide +kernel)
    (forall_iff_forall_mem.mp (by decide +kernel))
    (length_encodeUnits_le _ |>.trans (by decide)) (by decide)

end Darwin.Hfs
