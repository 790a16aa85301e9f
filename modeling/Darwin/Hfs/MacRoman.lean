import Darwin.Hfs.ConvertUTF

/-!
# MacRoman names

A MacRoman name goes to the VFS layer as decomposed Unicode in UTF-8.  On the way back a combining
mark takes the base character before it out again and puts the composed MacRoman character in its
place.

## Main results

* `unicodeToMacRoman_macRomanToUnicode`: the way back restores the characters one by one.
* `macRoman_round_trip`: a colon-free MacRoman name survives the way to UTF-8 and back.
-/

namespace Darwin.Hfs

open List

section Tables

/-- The character `?`, for units that have no character. -/
def fallback : UInt8 := 0x3F

/-- `gLatin1Table`: U+00A0 through U+00FF. -/
def latin1Table : Array UInt8 := #[
  0xCA, 0xC1, 0xA2, 0xA3, 0xDB, 0xB4, 0x3F, 0xA4, 0xAC, 0xA9, 0xBB, 0xC7, 0xC2, 0x3F, 0xA8, 0xF8,
  0xA1, 0xB1, 0x3F, 0x3F, 0xAB, 0xB5, 0xA6, 0xE1, 0xFC, 0x3F, 0xBC, 0xC8, 0x3F, 0x3F, 0x3F, 0xC0,
  0x3F, 0x3F, 0x3F, 0x3F, 0x3F, 0x3F, 0xAE, 0x3F, 0x3F, 0x3F, 0x3F, 0x3F, 0x3F, 0x3F, 0x3F, 0x3F,
  0x3F, 0x3F, 0x3F, 0x3F, 0x3F, 0x3F, 0x3F, 0x3F, 0xAF, 0x3F, 0x3F, 0x3F, 0x3F, 0x3F, 0x3F, 0xA7,
  0x3F, 0x3F, 0x3F, 0x3F, 0x3F, 0x3F, 0xBE, 0x3F, 0x3F, 0x3F, 0x3F, 0x3F, 0x3F, 0x3F, 0x3F, 0x3F,
  0x3F, 0x3F, 0x3F, 0x3F, 0x3F, 0x3F, 0x3F, 0xD6, 0xBF, 0x3F, 0x3F, 0x3F, 0x3F, 0x3F, 0x3F, 0x3F]

/-- `gSpaceModsTable`: U+02C0 through U+02DF. -/
def spaceModsTable : Array UInt8 := #[
  0x3F, 0x3F, 0x3F, 0x3F, 0x3F, 0x3F, 0xF6, 0xFF, 0x3F, 0x3F, 0x3F, 0x3F, 0x3F, 0x3F, 0x3F, 0x3F,
  0x3F, 0x3F, 0x3F, 0x3F, 0x3F, 0x3F, 0x3F, 0x3F, 0xF9, 0xFA, 0xFB, 0xFE, 0xF7, 0xFD, 0x3F, 0x3F]

/-- `gPunctTable`: U+2000 through U+204F. -/
def punctTable : Array UInt8 := #[
  0x3F, 0x3F, 0x3F, 0x3F, 0x3F, 0x3F, 0x3F, 0x3F, 0x3F, 0x3F, 0x3F, 0x3F, 0x3F, 0x3F, 0x3F, 0x3F,
  0x3F, 0x3F, 0x3F, 0xD0, 0xD1, 0x3F, 0x3F, 0x3F, 0xD4, 0xD5, 0xE2, 0x3F, 0xD2, 0xD3, 0xE3, 0x3F,
  0xA0, 0xE0, 0xA5, 0x3F, 0x3F, 0x3F, 0xC9, 0x3F, 0x3F, 0x3F, 0x3F, 0x3F, 0x3F, 0x3F, 0x3F, 0x3F,
  0xE4, 0x3F, 0x3F, 0x3F, 0x3F, 0x3F, 0x3F, 0x3F, 0x3F, 0xDC, 0xDD, 0x3F, 0x3F, 0x3F, 0x3F, 0x3F,
  0x3F, 0x3F, 0x3F, 0x3F, 0xDA, 0x3F, 0x3F, 0x3F, 0x3F, 0x3F, 0x3F, 0x3F, 0x3F, 0x3F, 0x3F, 0x3F]

/-- `gMathTable`: U+2200 through U+226F. -/
def mathTable : Array UInt8 := #[
  0x3F, 0x3F, 0xB6, 0x3F, 0x3F, 0x3F, 0xC6, 0x3F, 0x3F, 0x3F, 0x3F, 0x3F, 0x3F, 0x3F, 0x3F, 0xB8,
  0x3F, 0xB7, 0x3F, 0x3F, 0x3F, 0x3F, 0x3F, 0x3F, 0x3F, 0x3F, 0xC3, 0x3F, 0x3F, 0x3F, 0xB0, 0x3F,
  0x3F, 0x3F, 0x3F, 0x3F, 0x3F, 0x3F, 0x3F, 0x3F, 0x3F, 0x3F, 0x3F, 0xBA, 0x3F, 0x3F, 0x3F, 0x3F,
  0x3F, 0x3F, 0x3F, 0x3F, 0x3F, 0x3F, 0x3F, 0x3F, 0x3F, 0x3F, 0x3F, 0x3F, 0x3F, 0x3F, 0x3F, 0x3F,
  0x3F, 0x3F, 0x3F, 0x3F, 0x3F, 0x3F, 0x3F, 0x3F, 0xC5, 0x3F, 0x3F, 0x3F, 0x3F, 0x3F, 0x3F, 0x3F,
  0x3F, 0x3F, 0x3F, 0x3F, 0x3F, 0x3F, 0x3F, 0x3F, 0x3F, 0x3F, 0x3F, 0x3F, 0x3F, 0x3F, 0x3F, 0x3F,
  0xAD, 0x3F, 0x3F, 0x3F, 0xB2, 0xB3, 0x3F, 0x3F, 0x3F, 0x3F, 0x3F, 0x3F, 0x3F, 0x3F, 0x3F, 0x3F]

/-- `gReverseCombTable`: for the base characters from 0x40 on the place of their row, and then the
rows, one entry for each mark of U+0300 through U+030A. -/
def reverseCombTable : Array UInt8 := #[
  0xDA, 0x40, 0xDA, 0xDA, 0xDA, 0x56, 0xDA, 0xDA, 0xDA, 0x6C, 0xDA, 0xDA, 0xDA, 0xDA, 0x82, 0x98,
  0xDA, 0xDA, 0xDA, 0xDA, 0xDA, 0xAE, 0xDA, 0xDA, 0xDA, 0xC4, 0xDA, 0xDA, 0xDA, 0xDA, 0xDA, 0xDA,
  0xDA, 0x4B, 0xDA, 0xDA, 0xDA, 0x61, 0xDA, 0xDA, 0xDA, 0x77, 0xDA, 0xDA, 0xDA, 0xDA, 0x8D, 0xA3,
  0xDA, 0xDA, 0xDA, 0xDA, 0xDA, 0xB9, 0xDA, 0xDA, 0xDA, 0xCF, 0xDA, 0xDA, 0xDA, 0xDA, 0xDA, 0xDA,
  0xCB, 0xE7, 0xE5, 0xCC, 0x3F, 0x3F, 0x3F, 0x3F, 0x80, 0x3F, 0x81,
  0x88, 0x87, 0x89, 0x8B, 0x3F, 0x3F, 0x3F, 0x3F, 0x8A, 0x3F, 0x8C,
  0xE9, 0x83, 0xE6, 0x3F, 0x3F, 0x3F, 0x3F, 0x3F, 0xE8, 0x3F, 0x3F,
  0x8F, 0x8E, 0x90, 0x3F, 0x3F, 0x3F, 0x3F, 0x3F, 0x91, 0x3F, 0x3F,
  0xED, 0xEA, 0xEB, 0x3F, 0x3F, 0x3F, 0x3F, 0x3F, 0xEC, 0x3F, 0x3F,
  0x93, 0x92, 0x94, 0x3F, 0x3F, 0x3F, 0x3F, 0x3F, 0x95, 0x3F, 0x3F,
  0x3F, 0x3F, 0x3F, 0x84, 0x3F, 0x3F, 0x3F, 0x3F, 0x3F, 0x3F, 0x3F,
  0x3F, 0x3F, 0x3F, 0x96, 0x3F, 0x3F, 0x3F, 0x3F, 0x3F, 0x3F, 0x3F,
  0xF1, 0xEE, 0xEF, 0xCD, 0x3F, 0x3F, 0x3F, 0x3F, 0x85, 0x3F, 0x3F,
  0x98, 0x97, 0x99, 0x9B, 0x3F, 0x3F, 0x3F, 0x3F, 0x9A, 0x3F, 0x3F,
  0xF4, 0xF2, 0xF3, 0x3F, 0x3F, 0x3F, 0x3F, 0x3F, 0x86, 0x3F, 0x3F,
  0x9D, 0x9C, 0x9E, 0x3F, 0x3F, 0x3F, 0x3F, 0x3F, 0x9F, 0x3F, 0x3F,
  0x3F, 0x3F, 0x3F, 0x3F, 0x3F, 0x3F, 0x3F, 0x3F, 0xD9, 0x3F, 0x3F,
  0x3F, 0x3F, 0x3F, 0x3F, 0x3F, 0x3F, 0x3F, 0x3F, 0xD8, 0x3F, 0x3F,
  0x3F, 0x3F, 0x3F, 0x3F, 0x3F, 0x3F, 0x3F, 0x3F, 0x3F, 0x3F, 0x3F]

/-- `gHiBitBaseUnicode`: the base characters of 0x80 through 0xFF. -/
def hiBitBaseUnicode : Array UInt16 := #[
  0x0041, 0x0041, 0x0043, 0x0045, 0x004E, 0x004F, 0x0055, 0x0061,
  0x0061, 0x0061, 0x0061, 0x0061, 0x0061, 0x0063, 0x0065, 0x0065,
  0x0065, 0x0065, 0x0069, 0x0069, 0x0069, 0x0069, 0x006E, 0x006F,
  0x006F, 0x006F, 0x006F, 0x006F, 0x0075, 0x0075, 0x0075, 0x0075,
  0x2020, 0x00B0, 0x00A2, 0x00A3, 0x00A7, 0x2022, 0x00B6, 0x00DF,
  0x00AE, 0x00A9, 0x2122, 0x00B4, 0x00A8, 0x2260, 0x00C6, 0x00D8,
  0x221E, 0x00B1, 0x2264, 0x2265, 0x00A5, 0x00B5, 0x2202, 0x2211,
  0x220F, 0x03C0, 0x222B, 0x00AA, 0x00BA, 0x03A9, 0x00E6, 0x00F8,
  0x00BF, 0x00A1, 0x00AC, 0x221A, 0x0192, 0x2248, 0x2206, 0x00AB,
  0x00BB, 0x2026, 0x00A0, 0x0041, 0x0041, 0x004F, 0x0152, 0x0153,
  0x2013, 0x2014, 0x201C, 0x201D, 0x2018, 0x2019, 0x00F7, 0x25CA,
  0x0079, 0x0059, 0x2044, 0x00A4, 0x2039, 0x203A, 0xFB01, 0xFB02,
  0x2021, 0x00B7, 0x201A, 0x201E, 0x2030, 0x0041, 0x0045, 0x0041,
  0x0045, 0x0045, 0x0049, 0x0049, 0x0049, 0x0049, 0x004F, 0x004F,
  0xF8FF, 0x004F, 0x0055, 0x0055, 0x0055, 0x0131, 0x02C6, 0x02DC,
  0x00AF, 0x02D8, 0x02D9, 0x02DA, 0x00B8, 0x02DD, 0x02DB, 0x02C7]

/-- `gHiBitCombUnicode`: the combining marks of 0x80 through 0xFF. -/
def hiBitCombUnicode : Array UInt16 := #[
  0x0308, 0x030A, 0x0327, 0x0301, 0x0303, 0x0308, 0x0308, 0x0301,
  0x0300, 0x0302, 0x0308, 0x0303, 0x030A, 0x0327, 0x0301, 0x0300,
  0x0302, 0x0308, 0x0301, 0x0300, 0x0302, 0x0308, 0x0303, 0x0301,
  0x0300, 0x0302, 0x0308, 0x0303, 0x0301, 0x0300, 0x0302, 0x0308,
  0x0000, 0x0000, 0x0000, 0x0000, 0x0000, 0x0000, 0x0000, 0x0000,
  0x0000, 0x0000, 0x0000, 0x0000, 0x0000, 0x0000, 0x0000, 0x0000,
  0x0000, 0x0000, 0x0000, 0x0000, 0x0000, 0x0000, 0x0000, 0x0000,
  0x0000, 0x0000, 0x0000, 0x0000, 0x0000, 0x0000, 0x0000, 0x0000,
  0x0000, 0x0000, 0x0000, 0x0000, 0x0000, 0x0000, 0x0000, 0x0000,
  0x0000, 0x0000, 0x0000, 0x0300, 0x0303, 0x0303, 0x0000, 0x0000,
  0x0000, 0x0000, 0x0000, 0x0000, 0x0000, 0x0000, 0x0000, 0x0000,
  0x0308, 0x0308, 0x0000, 0x0000, 0x0000, 0x0000, 0x0000, 0x0000,
  0x0000, 0x0000, 0x0000, 0x0000, 0x0000, 0x0302, 0x0302, 0x0301,
  0x0308, 0x0300, 0x0301, 0x0302, 0x0308, 0x0300, 0x0301, 0x0302,
  0x0000, 0x0300, 0x0301, 0x0302, 0x0300, 0x0000, 0x0000, 0x0000,
  0x0000, 0x0000, 0x0000, 0x0000, 0x0000, 0x0000, 0x0000, 0x0000]

end Tables

section Model

/-- The results of the text conversions. -/
inductive TextResult where
  | noErr
  | usedFallbacks
  | outputBufferFull
  | malformedInput
  | partialChar
  deriving DecidableEq, Repr

/-- `Str31`: a Pascal string of at most 31 bytes. -/
structure Str31 where
  bytes : List UInt8
  short : bytes.length ≤ 31

/-- The MacRoman character of a unit above 0x7F, and whether it takes the base character before it
out. -/
def macRomanOfUnit (prevChar : UInt8) (c : UInt16) : UInt8 × Bool :=
  let lsb := c.toNat % 256
  if c &&& 0xFF00 = 0x0000 then
    if 0xA0 ≤ lsb then (latin1Table.getD (lsb - 0xA0) fallback, false) else (fallback, false)
  else if c &&& 0xFF00 = 0x0200 then
    if 0xC0 ≤ lsb ∧ lsb ≤ 0xDF then (spaceModsTable.getD (lsb - 0xC0) fallback, false)
    else (fallback, false)
  else if c &&& 0xFF00 = 0x2000 then
    if lsb ≤ 0x4F then (punctTable.getD lsb fallback, false) else (fallback, false)
  else if c &&& 0xFF00 = 0x2200 then
    if lsb ≤ 0x6F then (mathTable.getD lsb fallback, false) else (fallback, false)
  else if c &&& 0xFF00 = 0x0300 then
    if c ≤ 0x030A then
      if 0x41 ≤ prevChar ∧ prevChar < 0x7A then
        let row := (reverseCombTable.getD (prevChar.toNat - 0x40) fallback).toNat
        (reverseCombTable.getD (row + lsb) fallback, true)
      else (fallback, false)
    else if c = 0x0327 then
      if prevChar = 0x43 then (0x82, true)
      else if prevChar = 0x63 then (0x8D, true)
      else (fallback, false)
    else if c = 0x03A9 then (0xBD, false)
    else if c = 0x03C0 then (0xB9, false)
    else (fallback, false)
  else if c = 0x0131 then (0xF5, false)
  else if c = 0x0152 then (0xCE, false)
  else if c = 0x0153 then (0xCF, false)
  else if c = 0x0192 then (0xC4, false)
  else if c = 0x2122 then (0xAA, false)
  else if c = 0x25CA then (0xD7, false)
  else if c = 0xF8FF then (0xF0, false)
  else if c = 0xFB01 then (0xDE, false)
  else if c = 0xFB02 then (0xDF, false)
  else (fallback, false)

/-- The loop of `UnicodeToMacRoman`: `pascal` are the bytes written so far, the last one first. -/
def unicodeToMacRomanLoop (prevChar : UInt8) (pascal : List UInt8) (result : TextResult) :
    List UInt16 → TextResult × List UInt8
  | [] => (result, pascal.reverse)
  | c :: input =>
    if c &&& 0xFF80 ≠ 0 then
      let (mc, backup) := macRomanOfUnit prevChar c
      let pascal := if backup then pascal.tail else pascal
      let result := if mc = fallback then .usedFallbacks else result
      if pascal.length ≥ 31 then (.outputBufferFull, pascal.reverse)
      else unicodeToMacRomanLoop 0 (mc :: pascal) result input
    else
      let lsb := UInt8.ofNat c.toNat
      if pascal.length ≥ 31 then (.outputBufferFull, pascal.reverse)
      else unicodeToMacRomanLoop lsb (lsb :: pascal) result input

/-- `UnicodeToMacRoman`. -/
def unicodeToMacRoman (unicode : List UInt16) : TextResult × List UInt8 :=
  unicodeToMacRomanLoop 0 [] .noErr unicode

/-- The units of one MacRoman character. -/
def unitsOfMacRoman (c : UInt8) : List UInt16 :=
  if c < 0x80 then [UInt16.ofNat c.toNat]
  else
    let uc := hiBitBaseUnicode.getD (c.toNat - 0x80) 0
    if uc ≤ 0x7A ∧ 0x41 ≤ uc then [uc, hiBitCombUnicode.getD (c.toNat - 0x80) 0] else [uc]

/-- `MacRomanToUnicode`. -/
def macRomanToUnicode (pascal : List UInt8) : List UInt16 := pascal.flatMap unitsOfMacRoman

/-- `ConvertUTF8ToUnicode`, into a target of `maxDstLen` bytes. -/
def convertUTF8ToUnicode (beyond : UInt8) (src : List UInt8) (maxDstLen : ℕ) :
    TextResult × List UInt16 :=
  let conversion := convertUTF8toUTF16 beyond (maxDstLen / 2) src
  match conversion.result with
  | .targetExhausted => (.outputBufferFull, conversion.target)
  | .sourceExhausted => (.malformedInput, conversion.target)
  | .ok => (.noErr, conversion.target)

/-- `ConvertUnicodeToUTF8`, into a target of `maxDstLen` bytes, in which a null byte is appended. -/
def convertUnicodeToUTF8 (src : List UInt16) (maxDstLen : ℕ) : TextResult × List UInt8 :=
  let conversion := convertUTF16toUTF8 maxDstLen src
  match conversion.result with
  | .targetExhausted => (.outputBufferFull, conversion.target)
  | .sourceExhausted => (.partialChar, conversion.target)
  | .ok =>
    if conversion.target.length ≥ maxDstLen then (.outputBufferFull, conversion.target)
    else (.noErr, conversion.target)

/-- `ConvertUTF8ToMacRoman`, by way of 64 units. -/
def convertUTF8ToMacRoman (beyond : UInt8) (src : List UInt8) : TextResult × List UInt8 :=
  match convertUTF8ToUnicode beyond src 128 with
  | (.noErr, unicode) => unicodeToMacRoman unicode
  | (result, _) => (result, [])

/-- `ConvertMacRomanToUTF8`. -/
def convertMacRomanToUTF8 (src : Str31) (maxDstLen : ℕ) : TextResult × List UInt8 :=
  convertUnicodeToUTF8 (macRomanToUnicode src.bytes) maxDstLen

end Model

section RoundTrip

variable {c prevChar : UInt8} {pascal s : List UInt8} {input : List UInt16}

theorem length_unitsOfMacRoman_le (c : UInt8) : (unitsOfMacRoman c).length ≤ 2 := by
  unfold unitsOfMacRoman
  split
  · exact Nat.le_succ 1
  dsimp only
  split
  · exact le_refl 2
  · exact Nat.le_succ 1

/-- What is before a unit matters only to the combining marks. -/
theorem macRomanOfUnit_of_not_mark {unit : UInt16}
    (not_mark : ¬ (unit &&& 0xFF00 = 0x0300 ∧ unit ≤ 0x030A) ∧ unit ≠ 0x0327) :
    macRomanOfUnit prevChar unit = macRomanOfUnit 0 unit := by
  unfold macRomanOfUnit
  by_cases marks : unit &&& 0xFF00 = 0x0300
  · have above : ¬ unit ≤ 0x030A := fun low => not_mark.1 ⟨marks, low⟩
    simp only [marks, if_neg above, if_neg not_mark.2]
  · simp only [if_neg marks]

/-- Both halves of the character set.  A character of seven bits is one unit that stands for itself.
A character of eight bits is either one unit that is mapped back whatever is before it, or a base
character and a mark that takes it out again.  The units are decomposed, and a colon among them is a
colon before. -/
private theorem character_table : ∀ n < 128,
    ((unitsOfMacRoman (UInt8.ofNat n) = [UInt16.ofNat n] ∧ UInt16.ofNat n &&& 0xFF80 = 0 ∧
        UInt8.ofNat (UInt16.ofNat n).toNat = UInt8.ofNat n) ∧
      decomposer (UInt16.ofNat n) = (UInt16.ofNat n, 0) ∧ (UInt16.ofNat n = 0x3A → n = 0x3A)) ∧
    (let c := UInt8.ofNat (n + 128)
      let first := (unitsOfMacRoman c).getD 0 0
      let second := (unitsOfMacRoman c).getD 1 0
      c ≠ fallback ∧ ((unitsOfMacRoman c = [first] ∧ first &&& 0xFF80 ≠ 0 ∧
          (¬ (first &&& 0xFF00 = 0x0300 ∧ first ≤ 0x030A) ∧ first ≠ 0x0327) ∧
          macRomanOfUnit 0 first = (c, false)) ∨
        (unitsOfMacRoman c = [first, second] ∧ first &&& 0xFF80 = 0 ∧ second &&& 0xFF80 ≠ 0 ∧
          macRomanOfUnit (UInt8.ofNat first.toNat) second = (c, true)))) ∧
    (unitsOfMacRoman (UInt8.ofNat (n + 128))).all
      (fun unit => decomposer unit = (unit, 0) ∧ unit ≠ 0x3A) = true := by
  decide +kernel

/-- The units of a character are mapped back to it. -/
theorem loop_unitsOfMacRoman (room : pascal.length < 31) :
    ∃ prev, unicodeToMacRomanLoop prevChar pascal .noErr (unitsOfMacRoman c ++ input) =
      unicodeToMacRomanLoop prev (c :: pascal) .noErr input := by
  have bound : c.toNat < 256 := c.toNat_lt
  have own : UInt8.ofNat c.toNat = c := UInt8.ofNat_toNat
  rcases lt_or_ge c.toNat 128 with low | high
  · obtain ⟨units, plain, byte⟩ := (character_table c.toNat low).1.1
    rw [own] at units byte
    refine ⟨c, ?_⟩
    rw [units, singleton_append, unicodeToMacRomanLoop, if_neg (not_not_intro plain), byte]
    exact if_neg room.not_ge
  · have entry := (character_table (c.toNat - 128) (by omega)).2.1
    rw [Nat.sub_add_cancel high, own] at entry
    obtain ⟨mapped, ⟨units, marked, not_mark, back⟩ | ⟨units, plain, marked, back⟩⟩ := entry
    · refine ⟨0, ?_⟩
      rw [units, singleton_append, unicodeToMacRomanLoop, if_pos marked,
        macRomanOfUnit_of_not_mark not_mark, back]
      dsimp only
      rw [if_neg mapped]
      exact if_neg room.not_ge
    · refine ⟨0, ?_⟩
      rw [units, cons_append, unicodeToMacRomanLoop, if_neg (not_not_intro plain)]
      rw [if_neg room.not_ge, singleton_append, unicodeToMacRomanLoop,
        if_pos marked, back]
      dsimp only
      rw [if_neg mapped]
      exact if_neg room.not_ge

/-- The units of a short name are mapped back to the name. -/
theorem loop_macRomanToUnicode (room : pascal.length + s.length ≤ 31) :
    unicodeToMacRomanLoop prevChar pascal .noErr (macRomanToUnicode s) =
      (.noErr, pascal.reverse ++ s) := by
  induction s generalizing prevChar pascal with
  | nil => rw [macRomanToUnicode, flatMap_nil, unicodeToMacRomanLoop, append_nil]
  | cons c s ih =>
    rw [length_cons] at room
    have first : ∃ prev, unicodeToMacRomanLoop prevChar pascal .noErr
        (unitsOfMacRoman c ++ macRomanToUnicode s) =
        unicodeToMacRomanLoop prev (c :: pascal) .noErr (macRomanToUnicode s) :=
      loop_unitsOfMacRoman (by omega)
    obtain ⟨prev, step⟩ := first
    rw [macRomanToUnicode, flatMap_cons]
    rw [macRomanToUnicode] at step
    have rest : unicodeToMacRomanLoop prev (c :: pascal) .noErr (macRomanToUnicode s) =
        (.noErr, (c :: pascal).reverse ++ s) := ih (by rw [length_cons]; omega)
    rw [macRomanToUnicode] at rest
    rw [step, rest, reverse_cons, append_assoc, singleton_append]

theorem unicodeToMacRoman_macRomanToUnicode (short : s.length ≤ 31) :
    unicodeToMacRoman (macRomanToUnicode s) = (.noErr, s) := by
  have room : ([] : List UInt8).length + s.length ≤ 31 := by
    rw [length_nil]
    omega
  exact loop_macRomanToUnicode room

theorem length_macRomanToUnicode_le : (macRomanToUnicode s).length ≤ 2 * s.length := by
  induction s with
  | nil => exact Nat.zero_le _
  | cons c s ih =>
    have few := length_unitsOfMacRoman_le c
    rw [macRomanToUnicode] at ih ⊢
    rw [flatMap_cons, length_append, length_cons]
    omega

theorem decomposer_macRomanToUnicode {unit : UInt16} (mem : unit ∈ macRomanToUnicode s) :
    decomposer unit = (unit, 0) ∧ (unit = 0x3A → 0x3A ∈ s) := by
  rw [macRomanToUnicode, mem_flatMap] at mem
  obtain ⟨c, member, mem⟩ := mem
  have own : UInt8.ofNat c.toNat = c := UInt8.ofNat_toNat
  have bound := c.toNat_lt
  rcases lt_or_ge c.toNat 128 with low | high
  · obtain ⟨⟨units, -, -⟩, decomposed, colon⟩ := (character_table c.toNat low).1
    rw [own] at units
    rw [units, mem_singleton] at mem
    subst mem
    refine ⟨decomposed, ?_⟩
    intro same
    have byte : c = 0x3A := by
      rw [← own, colon same]
      rfl
    exact byte ▸ member
  · have entry := (character_table (c.toNat - 128) (by omega)).2.2
    rw [Nat.sub_add_cancel high, own, all_eq_true] at entry
    obtain ⟨decomposed, not_colon⟩ := of_decide_eq_true (entry unit mem)
    exact ⟨decomposed, fun same => absurd same not_colon⟩

/-- A MacRoman name without a colon that goes to UTF-8, with room for its bytes and a null byte, and
back, is what it was, whatever byte is behind the UTF-8 form. -/
theorem macRoman_round_trip (s : Str31) (maxDstLen : ℕ) (beyond : UInt8)
    (colonFree : 0x3A ∉ s.bytes)
    (room : (encodeUnits (macRomanToUnicode s.bytes)).length < maxDstLen) :
    ∃ utf8, convertMacRomanToUTF8 s maxDstLen = (.noErr, utf8) ∧
      convertUTF8ToMacRoman beyond utf8 = (.noErr, s.bytes) := by
  have decomposed : ∀ unit ∈ macRomanToUnicode s.bytes, decomposer unit = (unit, 0) :=
    fun unit mem => (decomposer_macRomanToUnicode mem).1
  have colon : 0x3A ∉ macRomanToUnicode s.bytes :=
    fun mem => colonFree ((decomposer_macRomanToUnicode mem).2 rfl)
  have few : (macRomanToUnicode s.bytes).length ≤ 128 / 2 := by
    have twice := length_macRomanToUnicode_le (s := s.bytes)
    have short := s.short
    omega
  refine ⟨encodeUnits (macRomanToUnicode s.bytes), ?_, ?_⟩
  · rw [convertMacRomanToUTF8, convertUnicodeToUTF8, convertUTF16toUTF8_of_fits room.le]
    exact if_neg room.not_ge
  · rw [convertUTF8ToMacRoman, convertUTF8ToUnicode,
      convertUTF8toUTF16_encodeUnits beyond colon decomposed few]
    exact unicodeToMacRoman_macRomanToUnicode s.short

/-- A name with an accented letter, a plain one, a sign and a letter with a cedilla. -/
theorem macRoman_round_trip_sample :
    ∃ utf8, convertMacRomanToUTF8 ⟨[0x8E, 0x61, 0xA9, 0x82], by decide⟩ 256 = (.noErr, utf8) ∧
      convertUTF8ToMacRoman 0 utf8 = (.noErr, [0x8E, 0x61, 0xA9, 0x82]) :=
  macRoman_round_trip ⟨[0x8E, 0x61, 0xA9, 0x82], by decide⟩ 256 0 (by decide)
    (lt_of_le_of_lt (length_encodeUnits_le _) (by decide +kernel))

end RoundTrip

end Darwin.Hfs
