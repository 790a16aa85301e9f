import Darwin.Boot.Rcz.Basic

/-!
# Decompression of any stream

`rcz_decompress_memory` and `rcz_decompress_file` run the same loops over different sources of bytes:
the memory from `in` on, and a file that is read into a buffer and gives `0xFF` after its end.  Here
they run with the slots of `que` that they read or write and the places of `out` that they write.
Neither looks at the index of a match before it uses it.

## Main results

* `decompress_safe_iff` - a run stays inside the queue exactly if no index of a match is 255; it
  always ends, and always writes the announced bytes
-/

namespace Darwin.Boot.Rcz

open List

/-! ## Sources -/

section Sources

/-- `*in++` in the memory routine. -/
def memByte (mem : ℕ → UInt8) (p : ℕ) : UInt8 × ℕ := (mem p, p + 1)

/-- An open file: what has not been read, and what is left in the buffer. -/
structure File where
  rest : Bytes
  buf : Bytes

/-- `BUF_SIZE`. -/
def bufSize : ℕ := 8192

/-- `get_byte`. -/
def File.getByte (f : File) : UInt8 × File :=
  match f.buf with
  | b :: buf => (b, { f with buf := buf })
  | [] =>
    match f.rest.take bufSize with
    | [] => (0xFF, f)
    | b :: buf => (b, ⟨f.rest.drop bufSize, buf⟩)

variable {σ : Type*} (next : σ → UInt8 × σ)

/-- Four bytes of a source, the most significant first. -/
def nextLong (s : σ) : ℕ × σ :=
  let (a, s) := next s
  let (b, s) := next s
  let (c, s) := next s
  let (d, s) := next s
  (((a.toNat * 2 ^ 8 + b.toNat) * 2 ^ 8 + c.toNat) * 2 ^ 8 + d.toNat, s)

/-- A source gives these bytes, from the place `p` on. -/
def Gives (bytes : ℕ → UInt8) (s : σ) (p : ℕ) : Prop :=
  ∀ i, (next ((fun s => (next s).2)^[i] s)).1 = bytes (p + i)

variable {next} {bytes : ℕ → UInt8} {s : σ} {p : ℕ}

theorem Gives.first (gives : Gives next bytes s p) : (next s).1 = bytes p := gives 0

theorem Gives.rest (gives : Gives next bytes s p) : Gives next bytes (next s).2 (p + 1) := by
  intro i
  have later := gives (i + 1)
  rwa [Function.iterate_succ_apply, add_comm i, ← add_assoc] at later

/-- The word at a place of a stream. -/
def wordAt (bytes : ℕ → UInt8) (p : ℕ) : ℕ :=
  (((bytes p).toNat * 2 ^ 8 + (bytes (p + 1)).toNat) * 2 ^ 8 + (bytes (p + 2)).toNat) * 2 ^ 8 +
    (bytes (p + 3)).toNat

theorem Gives.long (gives : Gives next bytes s p) :
    (nextLong next s).1 = wordAt bytes p ∧ Gives next bytes (nextLong next s).2 (p + 4) := by
  refine ⟨?_, gives.rest.rest.rest.rest⟩
  rw [wordAt, ← gives.first, ← gives.rest.first, ← gives.rest.rest.first,
    ← gives.rest.rest.rest.first]
  rfl

theorem gives_memByte (mem : ℕ → UInt8) (p : ℕ) : Gives (memByte mem) mem p p := by
  intro i
  have place : (fun s => (memByte mem s).2)^[i] p = p + i := by
    induction i with
    | zero => rfl
    | succ i ih => rw [Function.iterate_succ_apply', ih]; rfl
  rw [place]
  rfl

/-- The bytes of a file, and what is given after its end. -/
def padded (bytes : Bytes) (i : ℕ) : UInt8 := bytes.getD i 0xFF

theorem gives_getByte (f : File) : Gives File.getByte (padded (f.buf ++ f.rest)) f 0 := by
  intro i
  rw [zero_add]
  induction i generalizing f with
  | zero =>
    obtain ⟨rest, buf⟩ := f
    cases buf with
    | cons b buf => rfl
    | nil => cases rest <;> rfl
  | succ i ih =>
    rw [Function.iterate_succ_apply, ih]
    obtain ⟨rest, buf⟩ := f
    cases buf with
    | cons b buf => rfl
    | nil =>
      cases rest with
      | nil => rfl
      | cons b rest =>
        have whole : rest.take 8191 ++ rest.drop 8191 = rest := take_append_drop 8191 rest
        have same : padded (rest.take 8191 ++ rest.drop 8191) i = padded (b :: rest) (i + 1) := by
          rw [whole]
          rfl
        exact same

end Sources

/-! ## The routines -/

section Model

variable {σ : Type*} (next : σ → UInt8 × σ)

/-- The variables of both routines, with the slots of `que` that have been used and the writes
through `out`. -/
structure Loop (σ : Type*) where
  que : Queue
  input : σ
  out : ℕ
  slots : List ℕ
  written : List (ℕ × UInt8)

/-- The slots used by the loops that move the entries down. -/
def shiftSlots (lo : ℕ) : ℕ → List ℕ
  | 0 => []
  | j + 1 => if j + 1 > lo then j :: (j + 1) :: shiftSlots lo j else []

/-- The slots used for an unmatch. -/
def enterSlots : List ℕ := shiftSlots above (qlen - 1) ++ [above]

/-- `*out++`. -/
def Loop.put (d : Loop σ) (byte : ℕ) : Loop σ :=
  { d with out := d.out + 1, written := d.written ++ [(d.out, UInt8.ofNat byte)] }

/-- Process the queue for a match, and put the symbol out. -/
def Loop.matched (d : Loop σ) (jmatch : ℕ) (input : σ) : Loop σ :=
  let word := d.que.getD jmatch 0
  let jabove := (f1 * jmatch) >>> 4
  let slots := jmatch :: shiftSlots jabove jmatch ++ [jabove]
  let d := { d with que := d.que.moveUp jmatch, input := input, slots := d.slots ++ slots }
  (d.put (word >>> 8)).put word

/-- Process the queue for an unmatch, and put the symbol out. -/
def Loop.unmatched (d : Loop σ) (word : ℕ) (input : σ) : Loop σ :=
  let d := { d with que := d.que.enter word, input := input, slots := d.slots ++ enterSlots }
  (d.put (word >>> 8)).put word

/-- A round of the loop over a group. -/
def Loop.symbol (d : Loop σ) (token : Bool) : Loop σ :=
  let (byte, input) := next d.input
  if token then d.matched byte.toNat input
  else
    let (low, input) := next input
    d.unmatched (byte.toNat * 2 ^ 8 + low.toNat) input

/-- The loop over a group, with `left` symbols to go. -/
def Loop.group (evenLength token : ℕ) : ℕ → Loop σ → Loop σ
  | 0, d => d
  | left + 1, d =>
    let d := d.symbol next (token.testBit left)
    if d.out ≥ evenLength then d else Loop.group evenLength token left d

/-- The loop over the groups; nothing if it has not ended after so many rounds. -/
def Loop.groups (evenLength : ℕ) : ℕ → Loop σ → Option (Loop σ)
  | rounds, d =>
    if d.out < evenLength then
      match rounds with
      | 0 => none
      | rounds + 1 =>
        let (token, input) := nextLong next d.input
        Loop.groups evenLength rounds (Loop.group next evenLength token 32 { d with input := input })
    else some d

/-- What both routines do after the header. -/
def decompress (length : ℕ) (s : σ) : Option (ℕ × Loop σ) := do
  let evenLength := 2 * (length / 2)
  let d ← Loop.groups next evenLength evenLength ⟨.start, s, 0, List.range qlen, []⟩
  if evenLength ≠ length then
    let (byte, input) := next d.input
    some (length, Loop.put { d with input := input } byte.toNat)
  else some (length, d)

/-- `rcz_decompress_memory`.  Without the version it returns -1 and writes nothing. -/
def decompressMemory (mem : ℕ → UInt8) : Option (ℕ × Loop ℕ) :=
  let (version, p) := nextLong (memByte mem) 0
  if version ≠ method17Jul95 then some (2 ^ 32 - 1, ⟨[], p, 0, [], []⟩)
  else
    let (length, p) := nextLong (memByte mem) p
    decompress (memByte mem) length p

/-- `rcz_file_size`, a signed number. -/
def fileSize (bytes : Bytes) : ℤ :=
  let (version, f) := nextLong File.getByte ⟨bytes, []⟩
  if version ≠ method17Jul95 then -1
  else (BitVec.ofNat 32 (nextLong File.getByte f).1).toInt

/-- `rcz_decompress_file`, which returns a negative size as it is. -/
def decompressFile (bytes : Bytes) : Option (ℤ × Loop File) :=
  let length := fileSize bytes
  if length < 0 then some (length, ⟨[], ⟨bytes, []⟩, 0, [], []⟩)
  else (decompress File.getByte length.toNat ⟨bytes.drop 8, []⟩).map fun (n, d) => (n, d)

end Model

/-! ## Safety -/

section Safety

variable {σ : Type*} {next : σ → UInt8 × σ} {bytes : ℕ → UInt8} {d : Loop σ} {s : σ}
  {evenLength todo left token p : ℕ}

/-- The indices of the matches in a stream, from the place `p` on: `todo` symbols are to come, `left`
of them after this token word. -/
def matchBytes (bytes : ℕ → UInt8) : (todo left token p : ℕ) → List UInt8
  | 0, _, _, _ => []
  | todo + 1, left, token, p =>
    let (left, token, p) := if left = 0 then (32, wordAt bytes p, p + 4) else (left, token, p)
    if token.testBit (left - 1) then bytes p :: matchBytes bytes todo (left - 1) token (p + 1)
    else matchBytes bytes todo (left - 1) token (p + 2)

/-- The slots that have been used are slots of `que`. -/
def Loop.InQueue (d : Loop σ) : Prop := ∀ slot ∈ d.slots, slot < qlen

/-- The writes through `out` were to one place after the other. -/
def Loop.InOrder (d : Loop σ) : Prop := d.written.map Prod.fst = List.range d.out

/-- None of some indices is one more than the last slot. -/
def NoneOver (indices : List UInt8) : Prop := ∀ j ∈ indices, j ≠ 255

instance (indices : List UInt8) : Decidable (NoneOver indices) :=
  inferInstanceAs (Decidable (∀ j ∈ indices, j ≠ 255))

/-- The call has ended with this result.  It has used no slot outside `que`, and has written one byte
after the other, as many as announced. -/
def Safe {ρ : Type*} (returned : ρ) (length : ℕ) (run : Option (ρ × Loop σ)) : Prop :=
  ∃ d, run = some (returned, d) ∧ d.InQueue ∧ d.written.map Prod.fst = List.range length

theorem Loop.InOrder.put (order : d.InOrder) (byte : ℕ) : (d.put byte).InOrder := by
  rw [InOrder, Loop.put, map_append, order, range_succ]
  rfl

theorem Loop.InOrder.two {d₁ : Loop σ} (order : d.InOrder) (out : d₁.out = d.out)
    (written : d₁.written = d.written) (high low : ℕ) : ((d₁.put high).put low).InOrder := by
  have order₁ : d₁.InOrder := by
    rw [InOrder, written, out]
    exact order
  exact (order₁.put high).put low

theorem le_of_mem_shiftSlots {lo j slot : ℕ} (used : slot ∈ shiftSlots lo j) : slot ≤ j := by
  induction j with
  | zero => cases used
  | succ j ih =>
    rw [shiftSlots] at used
    split at used
    · rcases mem_cons.mp used with rfl | used
      · exact Nat.le_succ slot
      · rcases mem_cons.mp used with rfl | used
        · exact le_rfl
        · exact (ih used).trans (Nat.le_succ j)
    · cases used

/-- A match uses slots up to its index. -/
theorem match_slots (j : UInt8) :
    (∀ slot ∈ j.toNat :: shiftSlots ((f1 * j.toNat) >>> 4) j.toNat ++ [(f1 * j.toNat) >>> 4],
      slot < qlen) ↔ j ≠ 255 := by
  have size := j.toNat_lt
  have below : j ≠ 255 ↔ j.toNat < qlen := by
    rw [← UInt8.toNat_inj.ne, qlen]
    change j.toNat ≠ 255 ↔ _
    omega
  have up : (f1 * j.toNat) >>> 4 ≤ j.toNat := by
    rw [Nat.shiftRight_eq_div_pow, f1]
    omega
  rw [below]
  constructor
  · exact fun inside => inside _ mem_cons_self
  intro inside slot used
  rcases mem_append.mp used with used | used
  · rcases mem_cons.mp used with rfl | used
    · exact inside
    · exact (le_of_mem_shiftSlots used).trans_lt inside
  · exact (mem_singleton.mp used).trans_lt (up.trans_lt inside)

/-- An unmatch uses the slots from the fixed place on. -/
theorem enter_slots : ∀ slot ∈ enterSlots, slot < qlen := by
  intro slot used
  rcases mem_append.mp used with used | used
  · exact Nat.lt_of_le_pred (by decide) (le_of_mem_shiftSlots used)
  · exact (mem_singleton.mp used).trans_lt (by decide)

theorem inQueue_append {slots : List ℕ} :
    (∀ slot ∈ d.slots ++ slots, slot < qlen) ↔ d.InQueue ∧ ∀ slot ∈ slots, slot < qlen :=
  forall_mem_append

theorem Loop.matched_spec (d : Loop σ) (byte : UInt8) (input : σ) :
    (d.InOrder → (d.matched byte.toNat input).InOrder) ∧
    ((d.matched byte.toNat input).InQueue ↔ d.InQueue ∧ byte ≠ 255) := by
  rw [← match_slots]
  exact ⟨fun order => order.two rfl rfl _ _, inQueue_append⟩

theorem Loop.unmatched_spec (d : Loop σ) (word : ℕ) (input : σ) :
    (d.InOrder → (d.unmatched word input).InOrder) ∧
    ((d.unmatched word input).InQueue ↔ d.InQueue) := by
  rw [Loop.unmatched]
  generalize d.que.enter word = que
  exact ⟨fun order => order.two rfl rfl _ _, inQueue_append.trans (and_iff_left enter_slots)⟩

/-- What a symbol does. -/
theorem symbol_spec (gives : Gives next bytes d.input p) (bit : Bool) :
    (d.symbol next bit).out = d.out + 2 ∧ (d.InOrder → (d.symbol next bit).InOrder) ∧
    Gives next bytes (d.symbol next bit).input (if bit then p + 1 else p + 2) ∧
    ((d.symbol next bit).InQueue ↔ d.InQueue ∧ (bit → bytes p ≠ 255)) := by
  cases bit with
  | true =>
    obtain ⟨order, safe⟩ := d.matched_spec (next d.input).1 (next d.input).2
    refine ⟨rfl, order, gives.rest, safe.trans (and_congr_right fun _ => ?_)⟩
    rw [gives.first]
    exact ⟨fun other _ => other, fun other => other rfl⟩
  | false =>
    obtain ⟨order, safe⟩ := d.unmatched_spec _ (next (next d.input).2).2
    refine ⟨rfl, order, gives.rest.rest, safe.trans (and_iff_left ?_).symm⟩
    exact fun impossible => absurd impossible Bool.false_ne_true

theorem matchBytes_zero (token' : ℕ) :
    matchBytes bytes todo 0 token p = matchBytes bytes todo 0 token' p := by
  cases todo <;> rfl

/-- What a group does: as many symbols as there are, and no more than the group has. -/
theorem group_spec (gives : Gives next bytes d.input p) (more : 0 < todo)
    (room : d.out + 2 * todo = evenLength) :
    (Loop.group next evenLength token left d).out = d.out + 2 * min todo left ∧
    (d.InOrder → (Loop.group next evenLength token left d).InOrder) ∧
    ∃ p', Gives next bytes (Loop.group next evenLength token left d).input p' ∧
      ((Loop.group next evenLength token left d).InQueue ∧
        NoneOver (matchBytes bytes (todo - left) 0 0 p') ↔
      d.InQueue ∧ NoneOver (matchBytes bytes todo left token p)) := by
  induction left generalizing d todo p with
  | zero =>
    rw [Loop.group, Nat.sub_zero, matchBytes_zero 0]
    exact ⟨by omega, id, p, gives, Iff.rfl⟩
  | succ left ih =>
    obtain ⟨todo, rfl⟩ := Nat.exists_eq_succ_of_ne_zero more.ne'
    obtain ⟨out, order, gives', safe⟩ := symbol_spec gives (token.testBit left)
    have tail : d.InQueue ∧ NoneOver (matchBytes bytes (todo + 1) (left + 1) token p) ↔
        (d.symbol next (token.testBit left)).InQueue ∧ NoneOver (matchBytes bytes todo left token
          (if token.testBit left then p + 1 else p + 2)) := by
      rw [safe, and_assoc, matchBytes]
      simp only [Nat.add_one_ne_zero, if_false, Nat.add_sub_cancel]
      cases token.testBit left with
      | true =>
        rw [if_pos rfl, if_pos rfl, NoneOver, forall_mem_cons, imp_iff_right rfl]
        exact Iff.rfl
      | false =>
        exact and_congr_right fun _ => (and_iff_right fun impossible =>
          absurd impossible Bool.false_ne_true).symm
    rw [tail, Loop.group]
    generalize d.symbol next (token.testBit left) = d₁ at *
    rw [Nat.succ_eq_add_one, Nat.add_sub_add_right]
    split
    · have last : todo = 0 := by omega
      subst last
      refine ⟨by rw [out]; omega, order, _, gives', ?_⟩
      rw [Nat.zero_sub]
      exact Iff.rfl
    · obtain ⟨out', order', p', rest⟩ := @ih _ todo _ gives' (by omega) (by omega)
      exact ⟨by omega, order' ∘ order, p', rest⟩

/-- The loop over the groups ends, and has written the even length. -/
theorem groups_spec {rounds : ℕ} (gives : Gives next bytes d.input p)
    (room : d.out + 2 * todo = evenLength) (enough : todo ≤ rounds) (order : d.InOrder) :
    ∃ d', Loop.groups next evenLength rounds d = some d' ∧ d'.out = evenLength ∧ d'.InOrder ∧
      (d'.InQueue ↔ d.InQueue ∧ NoneOver (matchBytes bytes todo 0 0 p)) := by
  induction rounds generalizing d todo p with
  | zero =>
    have last : todo = 0 := Nat.le_zero.mp enough
    subst last
    rw [Loop.groups, if_neg (by omega)]
    exact ⟨d, rfl, by omega, order, (and_iff_left (forall_mem_nil _)).symm⟩
  | succ rounds ih =>
    rw [Loop.groups]
    split
    · obtain ⟨word, gives'⟩ := gives.long
      generalize nextLong next d.input = read at *
      obtain ⟨token, input⟩ := read
      obtain rfl : token = wordAt bytes p := word
      dsimp only
      have more : 0 < todo := by omega
      obtain ⟨out, order', p', gives'', safe⟩ := @group_spec _ _ _ { d with input := input } _ _ 32
        (wordAt bytes p) _ gives' more room
      generalize Loop.group next evenLength (wordAt bytes p) 32 { d with input := input } = d₁ at *
      have room' : d₁.out + 2 * (todo - 32) = evenLength := by
        change d₁.out = d.out + _ at out
        omega
      obtain ⟨d', ended, whole, ordered, safe'⟩ := ih gives'' room' (by omega) (order' order)
      refine ⟨d', ended, whole, ordered, safe'.trans (safe.trans (and_congr_right fun _ => ?_))⟩
      obtain ⟨todo, rfl⟩ := Nat.exists_eq_succ_of_ne_zero more.ne'
      exact Iff.rfl
    · have last : todo = 0 := by omega
      subst last
      exact ⟨d, rfl, by omega, order, (and_iff_left (forall_mem_nil _)).symm⟩

/-- What both routines do after the header. -/
theorem decompress_spec {length : ℕ} (gives : Gives next bytes s p) :
    ∃ d, decompress next length s = some (length, d) ∧ d.written.map Prod.fst = List.range length ∧
      (d.InQueue ↔ NoneOver (matchBytes bytes (length / 2) 0 0 p)) := by
  have filled : Loop.InQueue ⟨.start, s, 0, List.range qlen, []⟩ := by
    intro slot inside
    dsimp only at inside
    rwa [mem_range] at inside
  obtain ⟨d, ended, whole, ordered, safe⟩ :=
    @groups_spec _ _ _ ⟨.start, s, 0, List.range qlen, []⟩ (2 * (length / 2)) (length / 2) _
      (2 * (length / 2)) gives (zero_add _) (by omega) rfl
  rw [and_iff_right filled] at safe
  rw [decompress]
  rw [ended, Option.bind_eq_bind, Option.bind_some]
  split
  · have odd : length = d.out + 1 := by omega
    refine ⟨_, rfl, ?_, safe⟩
    rw [odd]
    exact ordered.put _
  · have even : length = d.out := by omega
    refine ⟨d, rfl, ?_, safe⟩
    rw [even]
    exact ordered

theorem safe_iff {ρ : Type*} {returned : ρ} {length : ℕ} {run : Option (ρ × Loop σ)}
    {holds : Prop} (ran : ∃ d, run = some (returned, d) ∧
      d.written.map Prod.fst = List.range length ∧ (d.InQueue ↔ holds)) :
    Safe returned length run ↔ holds := by
  obtain ⟨d, same, written, safe⟩ := ran
  rw [← safe]
  constructor
  · rintro ⟨d', same', inside, -⟩
    rw [same] at same'
    obtain ⟨-, rfl⟩ := Prod.mk.inj (Option.some.inj same')
    exact inside
  · exact fun inside => ⟨d, same, inside, written⟩

/-- Both routines run safely on a stream with the right version, and a length that is no negative
number, exactly if no index of a match is 255. -/
theorem decompress_safe_iff (mem : ℕ → UInt8) (file : Bytes) :
    (wordAt mem 0 = method17Jul95 → wordAt mem 4 < 2 ^ 31 →
      (Safe (wordAt mem 4) (wordAt mem 4) (decompressMemory mem) ↔
        NoneOver (matchBytes mem (wordAt mem 4 / 2) 0 0 8))) ∧
    (wordAt (padded file) 0 = method17Jul95 → wordAt (padded file) 4 < 2 ^ 31 →
      (Safe (wordAt (padded file) 4 : ℤ) (wordAt (padded file) 4) (decompressFile file) ↔
        NoneOver (matchBytes (padded file) (wordAt (padded file) 4 / 2) 0 0 8))) := by
  constructor
  · intro version short
    obtain ⟨word₁, gives₁⟩ := (gives_memByte mem 0).long
    obtain ⟨word₂, gives₂⟩ := gives₁.long
    rw [← zero_add 4, ← word₂]
    refine safe_iff ?_
    rw [decompressMemory]
    dsimp only
    rw [if_neg (not_not_intro (word₁.trans version))]
    exact decompress_spec gives₂
  · intro version short
    have gives : Gives File.getByte (padded file) ⟨file, []⟩ 0 := gives_getByte ⟨file, []⟩
    obtain ⟨word₁, gives₁⟩ := gives.long
    obtain ⟨word₂, -⟩ := gives₁.long
    rw [zero_add] at word₂
    have size : fileSize file = wordAt (padded file) 4 := by
      rw [fileSize]
      dsimp only
      rw [if_neg (not_not_intro (word₁.trans version)), word₂]
      rw [BitVec.toInt_ofNat', Int.bmod_eq_of_le (by omega) (by omega)]
    have body : Gives File.getByte (padded file) ⟨file.drop 8, []⟩ 8 := by
      intro i
      rw [gives_getByte]
      simp [padded, add_comm]
    refine safe_iff ?_
    obtain ⟨d, ran, written, safe⟩ := @decompress_spec _ _ _ _ _ (wordAt (padded file) 4) body
    refine ⟨d, ?_, written, safe⟩
    rw [decompressFile, size]
    dsimp only
    rw [if_neg (by omega), Int.toNat_natCast, ran]
    rfl

/-- A match at the last slot and a symbol that is sent as it is. -/
theorem decompress_safe_two :
    Safe 4 4 (decompressMemory (padded [0, 0, 2, 154, 0, 0, 0, 4, 128, 0, 0, 0, 254, 1, 2])) ∧
      Safe (4 : ℤ) 4 (decompressFile [0, 0, 2, 154, 0, 0, 0, 4, 128, 0, 0, 0, 254, 1, 2]) :=
  ⟨((decompress_safe_iff _ []).1 (by decide) (by decide)).mpr (by decide +kernel),
    ((decompress_safe_iff (padded []) _).2 (by decide) (by decide)).mpr (by decide +kernel)⟩

/-- The index 255 is used as it comes. -/
theorem decompress_unsafe : ¬ ∀ mem, wordAt mem 0 = method17Jul95 → wordAt mem 4 < 2 ^ 31 →
    Safe (wordAt mem 4) (wordAt mem 4) (decompressMemory mem) := by
  intro safe
  obtain ⟨d, ran, slots, -⟩ := safe (padded [0, 0, 2, 154, 0, 0, 0, 2, 128, 0, 0, 0, 255])
    (by decide) (by decide)
  have used : (decompressMemory (padded [0, 0, 2, 154, 0, 0, 0, 2, 128, 0, 0, 0, 255])).all
      (fun run => run.2.slots.contains 255) = true := by
    decide +kernel
  rw [ran, Option.all_some] at used
  exact absurd (slots 255 (contains_iff_mem.mp used)) (by decide)

end Safety

end Darwin.Boot.Rcz
