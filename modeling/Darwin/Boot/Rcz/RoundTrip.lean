import Mathlib.Data.List.Induction
import Darwin.Boot.Rcz.Basic

/-!
# Decompression undoes compression

Both routines keep the same queue: the decompressor does for each symbol it reads what the compressor
did when it sent it.  The compressed stream is a header, the groups of symbols, each coded against the
queue as the group before has left it, and a last byte where the length is odd.

## Main results

* `decompress_compress` - the decompressor restores every input, and reads what was written
* `compress_fits_iff` - when the output fits in the buffer made for it
-/

namespace Darwin.Boot.Rcz

open List Option Queue Decompressor UInt8

/-! ## Words -/

section Words

theorem getLong_putLong {n : ℕ} (small : n < 2 ^ 32) (rest : Bytes) :
    getLong (putLong n ++ rest) = some (n, rest) := by
  simp only [putLong, cons_append, nil_append, getLong, toNat_ofNat',
    Nat.shiftRight_eq_div_pow, some.injEq, Prod.mk.injEq, and_true]
  omega

theorem length_putLong (n : ℕ) : (putLong n).length = 4 := rfl

/-- The token word after these bits. -/
def tokenOf (bits : List Bool) : ℕ := bits.foldl (fun token bit => 2 * token + bit.toNat) 0

variable (bits : List Bool)

include bits

theorem tokenOf_concat (bit : Bool) : tokenOf (bits ++ [bit]) = 2 * tokenOf bits + bit.toNat := by
  rw [tokenOf, foldl_append]
  rfl

theorem tokenOf_lt : tokenOf bits < 2 ^ bits.length := by
  induction bits using List.reverseRecOn with
  | nil => decide
  | append_singleton bits bit ih =>
    have small := bit.toNat_lt
    rw [tokenOf_concat, length_append, length_singleton, pow_succ]
    omega

/-- The bits of a token word, the first at the top. -/
theorem testBit_tokenOf {j : ℕ} (inside : j < bits.length) :
    (tokenOf bits).testBit (bits.length - 1 - j) = bits[j] := by
  induction bits using List.reverseRecOn with
  | nil => exact (Nat.not_lt_zero j inside).elim
  | append_singleton bits bit ih =>
    rw [tokenOf_concat]
    rw [length_append, length_singleton] at inside
    rcases Nat.lt_succ_iff_lt_or_eq.mp inside with before | rfl
    · have place : (bits ++ [bit]).length - 1 - j = bits.length - 1 - j + 1 := by
        rw [length_append, length_singleton]
        omega
      have half : (2 * tokenOf bits + bit.toNat) / 2 = tokenOf bits := by
        have small := bit.toNat_lt
        omega
      rw [place, Nat.testBit_succ, half, ih before, getElem_append_left before]
    · have place : (bits ++ [bit]).length - 1 - bits.length = 0 := by
        rw [length_append, length_singleton]
        omega
      rw [place, getElem_concat_length rfl, Nat.testBit_zero]
      cases bit with
      | false => simp
      | true => simp [Nat.add_mod]

/-- A token word is moved to the top of the 32 bits. -/
theorem testBit_justified (short : bits.length ≤ 32) {j : ℕ} (inside : j < bits.length) :
    (tokenOf bits <<< (32 - bits.length)).testBit (31 - j) = bits[j] := by
  have above : 32 - bits.length ≤ 31 - j := by omega
  have place : 31 - j - (32 - bits.length) = bits.length - 1 - j := by omega
  rw [Nat.testBit_shiftLeft, decide_eq_true above, Bool.true_and, place,
    testBit_tokenOf bits inside]

theorem justified_lt (short : bits.length ≤ 32) : tokenOf bits <<< (32 - bits.length) < 2 ^ 32 := by
  rw [Nat.shiftLeft_eq]
  calc tokenOf bits * 2 ^ (32 - bits.length)
      < 2 ^ bits.length * 2 ^ (32 - bits.length) :=
        Nat.mul_lt_mul_of_pos_right (tokenOf_lt bits) (Nat.two_pow_pos _)
    _ = 2 ^ 32 := by rw [← Nat.pow_add, Nat.add_sub_of_le short]

end Words

/-! ## Symbols -/

section Symbols

variable {que : Queue} {word : ℕ}

theorem find_eq_some {j : ℕ} (found : que.find word = some j) : j < qlen ∧ que.getD j 0 = word := by
  have mem := mem_of_find?_eq_some found
  have same := List.find?_some found
  exact ⟨mem_range.mp mem, of_decide_eq_true same⟩

/-- What is sent for a symbol: the bit of the token word, and the datum. -/
def Queue.coded (que : Queue) (word : ℕ) : Bool × ℕ :=
  match que.find word with
  | some jmatch => (true, jmatch)
  | none => (false, word)

/-- The queue after a symbol. -/
def Queue.after (que : Queue) (word : ℕ) : Queue :=
  match que.find word with
  | some jmatch => que.moveUp jmatch
  | none => que.enter word

/-- The bytes of a datum. -/
def codedBytes (code : Bool × ℕ) : Bytes :=
  if code.1 then [ofNat code.2] else [ofNat (code.2 >>> 8), ofNat code.2]

/-- The two bytes of a symbol. -/
def wordBytes (word : ℕ) : Bytes := [ofNat (word >>> 8), ofNat word]

/-- The decompressor reads back a symbol that was sent against the queue it has. -/
theorem Decompressor.symbol_coded {d : Decompressor} {rest : Bytes} (small : word < 2 ^ 16)
    (input : d.input = codedBytes (d.que.coded word) ++ rest) :
    d.symbol (d.que.coded word).1 = some
      { que := d.que.after word, input := rest, out := d.out ++ wordBytes word
        queues := d.queues ++ [d.que.after word]
        tokens := d.tokens ++ [(d.que.coded word).1] } := by
  unfold Queue.coded Queue.after at *
  cases found : d.que.find word with
  | some jmatch =>
    obtain ⟨inside, same⟩ := find_eq_some found
    have byte : jmatch % 2 ^ 8 = jmatch := by
      unfold qlen at inside
      omega
    rw [found] at input
    dsimp only [codedBytes] at input
    rw [if_pos rfl] at input
    simp only [symbol, input, cons_append, nil_append, getByte,
      bind_eq_bind, bind_some, if_true, toNat_ofNat', byte, same]
    rfl
  | none =>
    rw [found] at input
    dsimp only [codedBytes] at input
    rw [if_neg Bool.false_ne_true] at input
    have joined : (ofNat (word >>> 8)).toNat * 2 ^ 8 + (ofNat word).toNat = word := by
      rw [toNat_ofNat', toNat_ofNat', Nat.shiftRight_eq_div_pow]
      omega
    simp only [symbol, input, cons_append, nil_append, getByte,
      bind_eq_bind, bind_some, if_neg Bool.false_ne_true, joined]
    rfl

end Symbols

/-! ## Groups -/

section Groups

variable {que : Queue} {word : ℕ} {words : List ℕ}

/-- What is sent for some symbols. -/
def Queue.codes (que : Queue) : List ℕ → List (Bool × ℕ)
  | [] => []
  | word :: words => que.coded word :: (que.after word).codes words

/-- The queue after each of some symbols. -/
def Queue.history (que : Queue) : List ℕ → List Queue
  | [] => []
  | word :: words => que.after word :: (que.after word).history words

/-- The queue after all of some symbols. -/
def Queue.afterAll (que : Queue) (words : List ℕ) : Queue := words.foldl after que

theorem length_codes : (que.codes words).length = words.length := by
  induction words generalizing que with
  | nil => rfl
  | cons word words ih => rw [codes, length_cons, ih, length_cons]

theorem codes_append (words' : List ℕ) :
    que.codes (words ++ words') = que.codes words ++ (que.afterAll words).codes words' := by
  induction words generalizing que with
  | nil => rfl
  | cons word words ih =>
    rw [cons_append, codes, ih, codes, cons_append]
    rfl

theorem history_append (words' : List ℕ) :
    que.history (words ++ words') = que.history words ++ (que.afterAll words).history words' := by
  induction words generalizing que with
  | nil => rfl
  | cons word words ih =>
    rw [cons_append, history, ih, history, cons_append]
    rfl

theorem afterAll_append (words' : List ℕ) :
    que.afterAll (words ++ words') = (que.afterAll words).afterAll words' :=
  foldl_append

/-- The bits of the token word of some symbols. -/
def Queue.bits (que : Queue) (words : List ℕ) : List Bool := (que.codes words).map Prod.fst

theorem codes_concat :
    que.codes (words ++ [word]) = que.codes words ++ [(que.afterAll words).coded word] := by
  rw [codes_append]
  rfl

theorem history_concat :
    que.history (words ++ [word]) = que.history words ++ [(que.afterAll words).after word] := by
  rw [history_append]
  rfl

theorem afterAll_concat : que.afterAll (words ++ [word]) = (que.afterAll words).after word := by
  rw [afterAll_append]
  rfl

theorem bits_concat :
    que.bits (words ++ [word]) = que.bits words ++ [((que.afterAll words).coded word).1] := by
  rw [bits, codes_concat, map_append]
  rfl

/-- The token word of a group, and its data. -/
def Queue.groupBytes (que : Queue) (words : List ℕ) : Bytes :=
  putLong (tokenOf (que.bits words) <<< (32 - words.length)) ++ (que.codes words).flatMap codedBytes

theorem length_bits : (que.bits words).length = words.length := by
  rw [bits, length_map, length_codes]

/-- The compressor unloads the data by the bits of the token word. -/
theorem unloadData_eq {token k : ℕ} {codes : List (Bool × ℕ)}
    (bits : ∀ j, (inside : j < codes.length) → token.testBit (31 - (k + j)) = codes[j].1) :
    unloadData token k (codes.map Prod.snd) = codes.flatMap codedBytes := by
  induction codes generalizing k with
  | nil => rfl
  | cons code codes ih =>
    have first := bits 0 (Nat.succ_pos _)
    rw [add_zero, getElem_cons_zero] at first
    rw [map_cons, unloadData, flatMap_cons, first, codedBytes]
    congr 1
    apply ih
    intro j inside
    have later := bits (j + 1) (Nat.succ_lt_succ inside)
    rw [getElem_cons_succ] at later
    rw [← later, add_assoc, add_comm 1 j]

theorem unload_group {c : Compressor} (short : words.length ≤ 32)
    (data : c.data = (que.codes words).map Prod.snd) :
    (c.unload (tokenOf (que.bits words) <<< (32 - words.length))).out =
      c.out ++ que.groupBytes words := by
  rw [Compressor.unload, groupBytes, ← append_assoc, data]
  rw [unloadData_eq]
  intro j inside
  have bound : j < (que.bits words).length := by
    rw [length_bits, ← length_codes]
    exact inside
  have same := testBit_justified (que.bits words) (length_bits.trans_le short) bound
  rw [length_bits] at same
  rw [zero_add, same]
  simp only [bits, getElem_map]

/-- The loop over a group reads its symbols. -/
theorem Decompressor.group_spec {evenLength token left : ℕ} {d : Decompressor} {rest : Bytes}
    (some_words : words ≠ []) (small : ∀ word ∈ words, word < 2 ^ 16) (room : words.length ≤ left)
    (bits : ∀ j, (inside : j < words.length) →
      token.testBit (left - 1 - j) = (d.que.bits words).get ⟨j, length_bits.symm ▸ inside⟩)
    (input : d.input = (d.que.codes words).flatMap codedBytes ++ rest)
    (fits : d.out.length + 2 * words.length ≤ evenLength)
    (full : words.length < left → d.out.length + 2 * words.length = evenLength) :
    group evenLength token left d = some
      { que := d.que.afterAll words, input := rest, out := d.out ++ words.flatMap wordBytes
        queues := d.queues ++ d.que.history words
        tokens := d.tokens ++ d.que.bits words } := by
  induction words generalizing left d with
  | nil => exact absurd rfl some_words
  | cons word words ih =>
    obtain ⟨left, rfl⟩ : ∃ n, left = n + 1 := Nat.exists_eq_add_of_le' (Nat.one_le_of_lt room)
    have first : token.testBit left = (d.que.coded word).1 := bits 0 (Nat.succ_pos _)
    rw [codes, flatMap_cons, append_assoc] at input
    have read := d.symbol_coded (small word mem_cons_self) input
    rw [length_cons] at fits full room
    rw [group, first, read, bind_eq_bind, bind_some]
    have longer : (d.out ++ wordBytes word).length = d.out.length + 2 := length_append
    rw [longer]
    rcases eq_nil_or_concat words with rfl | ⟨front, last, split⟩
    · -- the last symbol of the group
      have result : (⟨d.que.after word, (d.que.after word |>.codes []).flatMap codedBytes ++ rest,
          d.out ++ wordBytes word, d.queues ++ [d.que.after word],
          d.tokens ++ [(d.que.coded word).1]⟩ : Decompressor) =
          ⟨d.que.afterAll [word], rest, d.out ++ [word].flatMap wordBytes,
            d.queues ++ d.que.history [word], d.tokens ++ d.que.bits [word]⟩ := by
        simp [Queue.afterAll, Queue.codes, Queue.history, Queue.bits]
      rw [← result]
      split
      · rfl
      next more =>
      have done : left = 0 := by
        by_contra many
        have reached := full (by rw [length_nil]; omega)
        rw [length_nil] at reached
        omega
      rw [done]
      rfl
    · have more : words ≠ [] := by
        rw [split, concat_eq_append]
        exact concat_ne_nil _ _
      have count : 0 < words.length := length_pos_of_ne_nil more
      rw [if_neg (by omega), ih more (fun word mem => small word (mem_cons_of_mem _ mem))
        (by omega)]
      · simp [Queue.afterAll, Queue.history, Queue.bits, Queue.codes]
      · intro j inside
        have later := bits (j + 1) (Nat.succ_lt_succ inside)
        have place : left + 1 - 1 - (j + 1) = left - 1 - j := by omega
        rw [place] at later
        exact later
      · rfl
      · dsimp only
        rw [longer]
        omega
      intro fewer
      rw [longer]
      have reached := full (by omega)
      omega

/-- The bytes of several groups, one after the other. -/
def Queue.groupsBytes (que : Queue) : List (List ℕ) → Bytes
  | [] => []
  | words :: groups => que.groupBytes words ++ (que.afterAll words).groupsBytes groups

theorem groupsBytes_concat (groups : List (List ℕ)) :
    que.groupsBytes (groups ++ [words]) =
      que.groupsBytes groups ++ (que.afterAll groups.flatten).groupBytes words := by
  induction groups generalizing que with
  | nil => simp [groupsBytes, afterAll]
  | cons group groups ih =>
    rw [cons_append, groupsBytes, ih, groupsBytes, append_assoc,
      flatten_cons, afterAll_append]

/-- Groups of 32 symbols, and perhaps a shorter one at the end. -/
def Grouped : List (List ℕ) → Prop
  | [] => True
  | words :: groups => words ≠ [] ∧ words.length ≤ 32 ∧ (groups ≠ [] → words.length = 32) ∧
      Grouped groups

theorem grouped_of_full {groups : List (List ℕ)} (full : ∀ words ∈ groups, words.length = 32) :
    Grouped groups := by
  induction groups with
  | nil => trivial
  | cons words groups ih =>
    have length := full words mem_cons_self
    refine ⟨?_, length.le, fun _ => length, ih fun g mem => full g (mem_cons_of_mem _ mem)⟩
    rintro rfl
    cases length

theorem grouped_concat {groups : List (List ℕ)} (full : ∀ words ∈ groups, words.length = 32)
    (some_words : words ≠ []) (short : words.length ≤ 32) : Grouped (groups ++ [words]) := by
  induction groups with
  | nil => exact ⟨some_words, short, fun more => absurd rfl more, trivial⟩
  | cons group groups ih =>
    have length := full group mem_cons_self
    refine ⟨?_, length.le, fun _ => length, ih fun g mem => full g (mem_cons_of_mem _ mem)⟩
    rintro rfl
    cases length

/-- The loop over the groups reads all of them. -/
theorem Decompressor.groups_spec {evenLength rounds : ℕ} {groups : List (List ℕ)}
    {d : Decompressor} {rest : Bytes} (grouped : Grouped groups)
    (small : ∀ word ∈ groups.flatten, word < 2 ^ 16)
    (input : d.input = d.que.groupsBytes groups ++ rest)
    (total : d.out.length + 2 * groups.flatten.length = evenLength)
    (enough : groups.length ≤ rounds) :
    Decompressor.groups evenLength rounds d = some
      { que := d.que.afterAll groups.flatten, input := rest
        out := d.out ++ groups.flatten.flatMap wordBytes
        queues := d.queues ++ d.que.history groups.flatten
        tokens := d.tokens ++ d.que.bits groups.flatten } := by
  induction groups generalizing d rounds with
  | nil =>
    have ended : ¬ d.out.length < evenLength := by
      rw [flatten_nil, length_nil] at total
      omega
    have result : d = (⟨d.que.afterAll ([] : List (List ℕ)).flatten, rest,
        d.out ++ ([] : List (List ℕ)).flatten.flatMap wordBytes,
        d.queues ++ d.que.history ([] : List (List ℕ)).flatten,
        d.tokens ++ d.que.bits ([] : List (List ℕ)).flatten⟩ : Decompressor) := by
      have none_left : d.input = rest := input
      simp [afterAll, history, bits, codes, ← none_left]
    rw [← result]
    cases rounds with
    | zero => exact if_neg ended
    | succ rounds => exact if_neg ended
  | cons words groups ih =>
    obtain ⟨some_words, short, full, grouped⟩ := grouped
    obtain ⟨rounds, rfl⟩ : ∃ n, rounds = n + 1 := Nat.exists_eq_add_of_le' (Nat.one_le_of_lt enough)
    have count := length_pos_of_ne_nil some_words
    rw [flatten_cons, length_append] at total
    have token := justified_lt (d.que.bits words) (length_bits.trans_le short)
    rw [length_bits] at token
    rw [groupsBytes, groupBytes, append_assoc, append_assoc] at input
    have of_words : ∀ word ∈ words, word < 2 ^ 16 := fun word mem =>
      small word (mem_flatten.mpr ⟨words, mem_cons_self, mem⟩)
    have of_groups : ∀ word ∈ groups.flatten, word < 2 ^ 16 := fun word mem =>
      small word (by rw [flatten_cons]; exact mem_append_right _ mem)
    rw [Decompressor.groups, if_pos (by omega), input, getLong_putLong token,
      bind_eq_bind, bind_some]
    dsimp only
    rw [group_spec some_words of_words short ?bits rfl ?fits ?full]
    case bits =>
      intro j inside
      have bound : j < (d.que.bits words).length := length_bits.symm ▸ inside
      have same := testBit_justified (d.que.bits words) (length_bits.trans_le short) bound
      rw [length_bits] at same
      exact same
    case fits =>
      dsimp only
      omega
    case full =>
      intro fewer
      -- only the last group has fewer symbols
      have last : groups = [] := by
        by_contra more
        exact absurd (full more) fewer.ne
      rw [last, flatten_nil, length_nil] at total
      omega
    rw [bind_eq_bind, bind_some, ih grouped of_groups rfl ?total (Nat.le_of_succ_le_succ enough)]
    case total =>
      have bytes : (words.flatMap wordBytes).length = 2 * words.length := by
        rw [length_flatMap]
        simp [wordBytes, mul_comm]
      dsimp only
      rw [length_append, bytes]
      omega
    rw [flatten_cons, afterAll_append, history_append, flatMap_append]
    simp only [bits, codes_append, map_append, append_assoc]

end Groups

/-! ## The compressor -/

section Compress

variable {c : Compressor} {header : Bytes} {groups : List (List ℕ)} {pending words : List ℕ}
  {word : ℕ}

/-- The indices among what is sent. -/
def Queue.indices (que : Queue) (words : List ℕ) : List ℕ :=
  ((que.codes words).filter Prod.fst).map Prod.snd

theorem indices_concat (que : Queue) : que.indices (words ++ [word]) =
    que.indices words ++ if ((que.afterAll words).coded word).1 then
      [((que.afterAll words).coded word).2] else [] := by
  rw [indices, codes_concat, filter_append, map_append, ← indices]
  congr 1
  cases coded : ((que.afterAll words).coded word).1 with
  | false => simp [coded]
  | true => simp [coded]

/-- Every index is one of a place in the queue. -/
theorem lt_of_mem_indices {que : Queue} {j : ℕ} (mem : j ∈ que.indices words) : j < qlen := by
  induction words generalizing que with
  | nil => cases mem
  | cons word words ih =>
    rw [indices, codes, filter_cons] at mem
    split at mem
    · next index =>
      rcases mem_cons.mp mem with same | mem
      · unfold coded at same index
        cases found : que.find word with
        | some k =>
          rw [found] at same
          rw [same]
          exact (find_eq_some found).1
        | none =>
          rw [found] at index
          cases index
      · exact ih mem
    · exact ih mem

/-- The compressor has unloaded some groups, and holds the symbols since. -/
structure Compressor.Sends (header : Bytes) (groups : List (List ℕ)) (pending : List ℕ)
    (c : Compressor) : Prop where
  full : ∀ words ∈ groups, words.length = 32
  short : pending.length < 32
  data : c.data = ((Queue.start.afterAll groups.flatten).codes pending).map Prod.snd
  token : c.token = tokenOf ((Queue.start.afterAll groups.flatten).bits pending)
  que : c.que = Queue.start.afterAll (groups.flatten ++ pending)
  out : c.out = header ++ Queue.start.groupsBytes groups
  queues : c.queues = Queue.start.history (groups.flatten ++ pending)
  tokens : c.tokens = Queue.start.bits (groups.flatten ++ pending)
  indices : c.indices = Queue.start.indices (groups.flatten ++ pending)

theorem Compressor.sends_start (inbytes : ℕ) : (Compressor.start inbytes).Sends
    (putLong method17Jul95 ++ putLong inbytes) [] [] where
  full := fun _ mem => (not_mem_nil mem).elim
  short := by decide
  data := by simp [Compressor.start, Queue.codes]
  token := by simp [Compressor.start, Queue.bits, Queue.codes, tokenOf]
  que := by simp [Compressor.start, Queue.afterAll]
  out := by simp [Compressor.start, Queue.groupsBytes]
  queues := by simp [Compressor.start, Queue.history]
  tokens := by simp [Compressor.start, Queue.bits, Queue.codes]
  indices := by simp [Compressor.start, Queue.indices, Queue.codes]

theorem take_fields (c : Compressor) (word : ℕ) :
    (c.take word).data = c.data ++ [(c.que.coded word).2] ∧
      (c.take word).que = c.que.after word ∧ (c.take word).out = c.out ∧
      (c.take word).queues = c.queues ++ [c.que.after word] ∧
      (c.take word).tokens = c.tokens ++ [(c.que.coded word).1] ∧
      (c.take word).indices = c.indices ++
        if (c.que.coded word).1 then [(c.que.coded word).2] else [] := by
  unfold Compressor.take Queue.coded Queue.after
  cases c.que.find word with
  | some jmatch => simp
  | none => simp

theorem take_token (small : 2 * c.token + (c.que.coded word).1.toNat < 2 ^ 32) :
    (c.take word).token = 2 * c.token + (c.que.coded word).1.toNat := by
  unfold Compressor.take
  unfold coded at small ⊢
  cases found : c.que.find word with
  | some jmatch =>
    rw [found] at small
    exact Nat.mod_eq_of_lt small
  | none =>
    rw [found] at small
    exact Nat.mod_eq_of_lt small

/-- A symbol is sent against the queue, and the group is unloaded when it is full. -/
theorem Compressor.Sends.symbol (sends : c.Sends header groups pending) (word : ℕ) :
    ∃ groups' pending', (c.symbol word).Sends header groups' pending' ∧
      groups'.flatten ++ pending' = groups.flatten ++ pending ++ [word] := by
  obtain ⟨full, short, data, token, que, out, queues, tokens, indices⟩ := sends
  obtain ⟨flushed, is_flushed⟩ : ∃ q, q = Queue.start.afterAll groups.flatten := ⟨_, rfl⟩
  rw [← is_flushed] at data token
  have before : c.que = flushed.afterAll pending := by
    rw [que, afterAll_append, is_flushed]
  have token_bound : tokenOf (flushed.bits (pending ++ [word])) < 2 ^ 32 := by
    have few : (flushed.bits (pending ++ [word])).length ≤ 32 := by
      rw [length_bits, length_append, length_singleton]
      exact short
    exact (tokenOf_lt _).trans_le (Nat.pow_le_pow_right Nat.two_pos few)
  have bits : flushed.bits (pending ++ [word]) =
      flushed.bits pending ++ [(c.que.coded word).1] := by
    rw [bits_concat, before]
  have codes : (flushed.codes (pending ++ [word])).map Prod.snd =
      c.data ++ [(c.que.coded word).2] := by
    rw [codes_concat, map_append, data, before]
    rfl
  -- the state after the symbol, before a full group is unloaded
  obtain ⟨data', que', out', queues', tokens', indices'⟩ := take_fields c word
  have token' : (c.take word).token = tokenOf (flushed.bits (pending ++ [word])) := by
    rw [bits, tokenOf_concat, ← token] at token_bound ⊢
    exact take_token token_bound
  rw [← codes] at data'
  rw [Compressor.symbol]
  generalize c.take word = c' at data' token' que' out' queues' tokens' indices' ⊢
  have que'' : c'.que = Queue.start.afterAll (groups.flatten ++ pending ++ [word]) := by
    rw [que', que, afterAll_concat]
  have queues'' : c'.queues = Queue.start.history (groups.flatten ++ pending ++ [word]) := by
    rw [queues', queues, history_concat, que]
  have tokens'' : c'.tokens = Queue.start.bits (groups.flatten ++ pending ++ [word]) := by
    rw [tokens', tokens, bits_concat, que]
  have indices'' : c'.indices = Queue.start.indices (groups.flatten ++ pending ++ [word]) := by
    rw [indices', indices, indices_concat, que]
  have length : c'.data.length = pending.length + 1 := by
    rw [data', length_map, length_codes, length_append, length_singleton]
  rw [length]
  by_cases unloads : pending.length + 1 = 32
  · rw [if_pos unloads]
    have count : (pending ++ [word]).length = 32 := by
      rw [length_append, length_singleton, unloads]
    have unloaded := @unload_group flushed (pending ++ [word]) c' count.le data'
    rw [count, Nat.sub_self, Nat.shiftLeft_zero, ← token', out', out] at unloaded
    have whole : (groups ++ [pending ++ [word]]).flatten ++ [] =
        groups.flatten ++ pending ++ [word] := by
      rw [flatten_append, flatten_singleton, append_nil, append_assoc]
    refine ⟨groups ++ [pending ++ [word]], [], ⟨?_, by decide, rfl, rfl, ?_, ?_, ?_, ?_, ?_⟩, whole⟩
    · intro words mem
      rcases mem_append.mp mem with mem | mem
      · exact full words mem
      · rw [mem_singleton.mp mem, count]
    · rw [whole]
      exact que''
    · rw [groupsBytes_concat, ← is_flushed, ← append_assoc]
      exact unloaded
    · rw [whole]
      exact queues''
    · rw [whole]
      exact tokens''
    · rw [whole]
      exact indices''
  · rw [if_neg unloads]
    have whole : groups.flatten ++ (pending ++ [word]) = groups.flatten ++ pending ++ [word] :=
      (append_assoc _ _ _).symm
    refine ⟨groups, pending ++ [word], ⟨full, ?_, ?_, ?_, ?_, out'.trans out, ?_, ?_, ?_⟩, whole⟩
    · rw [length_append, length_singleton]
      omega
    · rw [← is_flushed]
      exact data'
    · rw [← is_flushed]
      exact token'
    · rw [whole]
      exact que''
    · rw [whole]
      exact queues''
    · rw [whole]
      exact tokens''
    · rw [whole]
      exact indices''

/-- The symbols of an input. -/
def symbolsOf : Bytes → List ℕ
  | [] => []
  | [_] => []
  | a :: b :: input => (a.toNat * 2 ^ 8 + b.toNat) :: symbolsOf input

/-- The byte of an input that is in no symbol. -/
def oddByte : Bytes → Bytes
  | [] => []
  | [b] => [b]
  | _ :: _ :: input => oddByte input

theorem wordBytes_symbolsOf (input : Bytes) :
    (symbolsOf input).flatMap wordBytes ++ oddByte input = input := by
  induction input using symbolsOf.induct with
  | case1 => rfl
  | case2 b => rfl
  | case3 a b input ih =>
    have high : ofNat ((a.toNat * 2 ^ 8 + b.toNat) >>> 8) = a := by
      apply toNat.inj
      have := a.toNat_lt
      have := b.toNat_lt
      rw [toNat_ofNat', Nat.shiftRight_eq_div_pow]
      omega
    have low : ofNat (a.toNat * 2 ^ 8 + b.toNat) = b := by
      apply toNat.inj
      have := b.toNat_lt
      rw [toNat_ofNat']
      omega
    rw [symbolsOf, oddByte, flatMap_cons, append_assoc, ih, wordBytes, high, low]
    rfl

theorem length_symbolsOf (input : Bytes) : (symbolsOf input).length = input.length / 2 := by
  induction input using symbolsOf.induct with
  | case1 => rfl
  | case2 b => simp [symbolsOf]
  | case3 a b input ih =>
    rw [symbolsOf, length_cons, ih, length_cons, length_cons]
    omega

theorem lt_of_mem_symbolsOf {input : Bytes} (mem : word ∈ symbolsOf input) : word < 2 ^ 16 := by
  induction input using symbolsOf.induct with
  | case1 => cases mem
  | case2 b => cases mem
  | case3 a b input ih =>
    rcases mem_cons.mp mem with rfl | mem
    · have := a.toNat_lt
      have := b.toNat_lt
      omega
    · exact ih mem

/-- The loop over the bytes sends the symbols, and the last byte of an odd input is at the bottom of
the word. -/
theorem Compressor.bytes_spec {input : Bytes} {ct : ℕ} (even : ct % 2 = 0)
    (sends : c.Sends header groups pending) :
    ∃ groups' pending', (Compressor.bytes ct input c).Sends header groups' pending' ∧
      groups'.flatten ++ pending' = groups.flatten ++ pending ++ symbolsOf input ∧
      (input.length % 2 = 1 →
        oddByte input = [ofNat (Compressor.bytes ct input c).word]) := by
  induction input using symbolsOf.induct generalizing c groups pending ct with
  | case1 => exact ⟨groups, pending, sends, (append_nil _).symm, fun odd => by cases odd⟩
  | case2 b =>
    have first : ¬ ct % 2 = 1 := by omega
    rw [Compressor.bytes, Compressor.bytes, Compressor.byte, if_neg first]
    obtain ⟨full, short, data, token, que, out, queues, tokens, indices⟩ := sends
    refine ⟨groups, pending, ⟨full, short, data, token, que, out, queues, tokens, indices⟩,
      (append_nil _).symm, fun _ => ?_⟩
    have low : ofNat ((c.word * 2 ^ 8 + b.toNat) % 2 ^ 32) = b := by
      apply toNat.inj
      have := b.toNat_lt
      rw [toNat_ofNat']
      omega
    rw [low, oddByte]
  | case3 a b input ih =>
    have first : ¬ ct % 2 = 1 := by omega
    have second : (ct + 1) % 2 = 1 := by omega
    have joined : (((c.word * 2 ^ 8 + a.toNat) % 2 ^ 32) * 2 ^ 8 + b.toNat) % 2 ^ 32 % 2 ^ 16 =
        a.toNat * 2 ^ 8 + b.toNat := by
      have := a.toNat_lt
      have := b.toNat_lt
      omega
    rw [Compressor.bytes, Compressor.bytes, Compressor.byte, Compressor.byte, if_neg first,
      if_pos second, joined]
    obtain ⟨full, short, data, token, que, out, queues, tokens, indices⟩ := sends
    have sends' : Compressor.Sends header groups pending
        { c with word := (c.word * 2 ^ 8 + a.toNat) % 2 ^ 32 } :=
      ⟨full, short, data, token, que, out, queues, tokens, indices⟩
    obtain ⟨groups₁, pending₁, sends₁, whole₁⟩ := sends'.symbol (a.toNat * 2 ^ 8 + b.toNat)
    obtain ⟨groups₂, pending₂, sends₂, whole₂, odd⟩ :=
      @ih _ _ _ (ct + 1 + 1) (by omega) sends₁
    refine ⟨groups₂, pending₂, sends₂, ?_, fun parity => ?_⟩
    · rw [whole₂, whole₁, symbolsOf, append_assoc _ [_]]
      rfl
    · rw [length_cons, length_cons] at parity
      exact odd (by omega)

/-- What `rcz_compress_memory` has sent: the header, groups of the symbols, and the odd byte. -/
theorem compress_spec (input : Bytes) : ∃ groups, Grouped groups ∧
    groups.flatten = symbolsOf input ∧
    (rczCompressMemory input).out = putLong method17Jul95 ++ putLong input.length ++
      start.groupsBytes groups ++ oddByte input ∧
    (rczCompressMemory input).queues = start.history (symbolsOf input) ∧
    (rczCompressMemory input).tokens = start.bits (symbolsOf input) ∧
    (rczCompressMemory input).indices = start.indices (symbolsOf input) := by
  obtain ⟨groups, pending, sends, whole, odd⟩ :=
    @Compressor.bytes_spec _ _ _ _ input 0 rfl (Compressor.sends_start input.length)
  rw [flatten_nil, nil_append, nil_append] at whole
  unfold rczCompressMemory
  generalize Compressor.bytes 0 input (.start input.length) = c at *
  obtain ⟨full, short, data, token, que, out, queues, tokens, indices⟩ := sends
  rw [whole] at queues tokens indices
  have length : c.data.length = pending.length := by
    rw [data, length_map, length_codes]
  -- the last group
  obtain ⟨c', made, groups', grouped, whole', word', out', queues', tokens', indices'⟩ :
      ∃ c' : Compressor, c' = (if c.data.length > 0 then
        c.unload (c.token <<< (32 - c.data.length) % 2 ^ 32) else c) ∧
      ∃ groups', Grouped groups' ∧ groups'.flatten = symbolsOf input ∧ c'.word = c.word ∧
        c'.out = putLong method17Jul95 ++ putLong input.length ++ start.groupsBytes groups' ∧
        c'.queues = c.queues ∧ c'.tokens = c.tokens ∧ c'.indices = c.indices := by
    refine ⟨_, rfl, ?_⟩
    rw [length]
    by_cases some_pending : pending = []
    · subst some_pending
      rw [append_nil] at whole
      exact ⟨groups, grouped_of_full full, whole, rfl, out, rfl, rfl, rfl⟩
    have count := length_pos_of_ne_nil some_pending
    rw [if_pos count]
    have bound := justified_lt ((start.afterAll groups.flatten).bits pending)
      (length_bits.trans_le short.le)
    rw [length_bits] at bound
    refine ⟨groups ++ [pending], grouped_concat full some_pending short.le, ?_, rfl, ?_, rfl, rfl,
      rfl⟩
    · rw [flatten_append, flatten_singleton]
      exact whole
    · rw [token, Nat.mod_eq_of_lt bound, unload_group short.le data, out, groupsBytes_concat,
        append_assoc]
  dsimp only
  rw [← made]
  refine ⟨groups', grouped, whole', ?_⟩
  rw [← queues, ← tokens, ← indices, ← queues', ← tokens', ← indices']
  split
  · next parity =>
    refine ⟨?_, rfl, rfl, rfl⟩
    rw [odd parity, out', word']
  next parity =>
  have even : oddByte input = [] := by
    have bytes := congrArg List.length (wordBytes_symbolsOf input)
    have symbols : ((symbolsOf input).flatMap wordBytes).length =
        2 * (symbolsOf input).length := by
      rw [length_flatMap]
      simp [wordBytes, mul_comm]
    rw [length_append, symbols, length_symbolsOf] at bytes
    exact eq_nil_of_length_eq_zero (by omega)
  rw [even, append_nil]
  exact ⟨out', rfl, rfl, rfl⟩

end Compress

/-! ## The round trip -/

section RoundTrip

/-- How many of some symbols are in the queue when they come. -/
def Queue.hits (que : Queue) : List ℕ → ℕ
  | [] => 0
  | word :: words => (if (que.find word).isSome then 1 else 0) + (que.after word).hits words

theorem hits_append {que : Queue} (words words' : List ℕ) :
    que.hits (words ++ words') = que.hits words + (que.afterAll words).hits words' := by
  induction words generalizing que with
  | nil => exact (zero_add _).symm
  | cons word words ih =>
    rw [cons_append, hits, ih, hits, add_assoc]
    rfl

/-- A symbol takes two bytes, and one if it is in the queue. -/
theorem length_data (que : Queue) (words : List ℕ) :
    ((que.codes words).flatMap codedBytes).length + que.hits words = 2 * words.length := by
  induction words generalizing que with
  | nil => rfl
  | cons word words ih =>
    have one : (codedBytes (que.coded word)).length +
        (if (que.find word).isSome then 1 else 0) = 2 := by
      rw [coded]
      cases que.find word <;> rfl
    have rest := ih (que.after word)
    rw [codes, flatMap_cons, length_append, length_cons, hits]
    omega

theorem length_groupsBytes (que : Queue) (groups : List (List ℕ)) :
    (que.groupsBytes groups).length + que.hits groups.flatten =
      4 * groups.length + 2 * groups.flatten.length := by
  induction groups generalizing que with
  | nil => rfl
  | cons words groups ih =>
    have data := length_data que words
    have rest := ih (que.afterAll words)
    rw [groupsBytes, groupBytes, length_append, length_append,
      length_putLong, length_cons, flatten_cons, length_append, hits_append]
    omega

/-- Only the last group may be short of 32 symbols. -/
theorem count_groups {groups : List (List ℕ)} (grouped : Grouped groups) :
    groups.length ≤ groups.flatten.length ∧
      groups.length = (groups.flatten.length + 31) / 32 := by
  induction groups with
  | nil => exact ⟨le_rfl, rfl⟩
  | cons words groups ih =>
    obtain ⟨some_words, short, full, grouped⟩ := grouped
    have count := length_pos_of_ne_nil some_words
    rw [flatten_cons, length_append, length_cons]
    by_cases last : groups = []
    · rw [last, length_nil, flatten_nil, length_nil]
      omega
    · have length := full last
      have rest := ih grouped
      omega

theorem length_oddByte (input : Bytes) : (oddByte input).length = input.length % 2 := by
  induction input using symbolsOf.induct with
  | case1 => rfl
  | case2 b => simp [oddByte]
  | case3 a b input ih =>
    rw [oddByte, ih, length_cons, length_cons]
    omega

/-- The decompressor restores every input of less than `2 ^ 31` bytes, and reads as many bytes as the
compressor has reported, whatever follows them.  After each symbol both have the same queue, both go
by the same bits of the token words, and every index is a place in the queue and fits in a byte. -/
theorem decompress_compress (input more : Bytes) (short : input.length < 2 ^ 31) :
    ∃ d, rczDecompressMemory ((rczCompressMemory input).out ++ more) = some (input.length, d) ∧
      d.out = input ∧ d.input = more ∧
      (rczCompressMemory input).emitted = (rczCompressMemory input).out.length ∧
      (rczCompressMemory input).queues.length = input.length / 2 ∧
      d.queues = (rczCompressMemory input).queues ∧
      d.tokens = (rczCompressMemory input).tokens ∧
      ∀ j ∈ (rczCompressMemory input).indices, j < qlen ∧ j < 2 ^ 8 := by
  obtain ⟨groups, grouped, symbols, out, queues, tokens, indices⟩ := compress_spec input
  have count := length_symbolsOf input
  obtain ⟨few, full⟩ := count_groups grouped
  rw [symbols, count] at few full
  have length_lt : input.length < 2 ^ 32 := short.trans (by decide)
  have version_lt : method17Jul95 < 2 ^ 32 := by decide
  have emitted : (rczCompressMemory input).emitted = (rczCompressMemory input).out.length := by
    have bound := length_groupsBytes start groups
    rw [symbols, count] at bound
    refine Nat.mod_eq_of_lt ?_
    rw [out, length_append, length_append, length_append, length_putLong,
      length_putLong, length_oddByte]
    omega
  have history : (start.history (symbolsOf input)).length = input.length / 2 := by
    rw [← count]
    generalize start = que
    induction symbolsOf input generalizing que with
    | nil => rfl
    | cons word words ih => rw [history, length_cons, ih, length_cons]
  have read (que : Queue) : Decompressor.groups (2 * (input.length / 2)) (2 * (input.length / 2))
      ⟨que, que.groupsBytes groups ++ (oddByte input ++ more), [], [], []⟩ = _ :=
    Decompressor.groups_spec grouped (fun word mem => lt_of_mem_symbolsOf (symbols ▸ mem)) rfl
      (by rw [symbols, count, length_nil, zero_add]) (by omega)
  rw [symbols] at read
  rw [queues, tokens, indices]
  have indexed : ∀ j ∈ start.indices (symbolsOf input), j < qlen ∧ j < 2 ^ 8 := by
    intro j mem
    have inside := lt_of_mem_indices mem
    exact ⟨inside, inside.trans (by decide)⟩
  have restored := wordBytes_symbolsOf input
  rw [rczDecompressMemory, emitted, out, append_assoc, append_assoc, append_assoc,
    getLong_putLong version_lt, bind_eq_bind, bind_some]
  dsimp only
  rw [if_neg (not_not.mpr rfl), getLong_putLong length_lt, bind_eq_bind, bind_some]
  dsimp only
  rw [read, bind_some]
  dsimp only
  rw [nil_append, nil_append, nil_append]
  by_cases parity : input.length % 2 = 1
  · obtain ⟨b, odd⟩ : ∃ b, oddByte input = [b] :=
      length_eq_one_iff.mp ((length_oddByte input).trans parity)
    have uneven : 2 * (input.length / 2) ≠ input.length := by omega
    have byte : ofNat b.toNat = b := toNat.inj (by
      have := b.toNat_lt
      rw [toNat_ofNat']
      omega)
    rw [if_pos uneven, odd]
    rw [cons_append, nil_append, getByte, bind_some]
    refine ⟨_, rfl, ?_, rfl, rfl, history, rfl, rfl, indexed⟩
    rw [byte, ← odd]
    exact restored
  · have none_left : oddByte input = [] := by
      have length := length_oddByte input
      exact eq_nil_of_length_eq_zero (by omega)
    have even : ¬ 2 * (input.length / 2) ≠ input.length := by omega
    rw [if_neg even, none_left, nil_append]
    refine ⟨_, rfl, ?_, rfl, rfl, history, rfl, rfl, indexed⟩
    rw [none_left, append_nil] at restored
    exact restored

/-- Seven bytes, the second symbol is found in the queue. -/
theorem decompress_compress_seven :
    ∃ d, rczDecompressMemory ((rczCompressMemory [1, 2, 1, 2, 0, 5, 9]).out ++ [77]) = some (7, d) ∧
      d.out = [1, 2, 1, 2, 0, 5, 9] ∧ d.input = [77] := by
  obtain ⟨d, read, out, input, -⟩ := decompress_compress [1, 2, 1, 2, 0, 5, 9] [77] (by decide)
  exact ⟨d, read, out, input⟩

end RoundTrip

/-! ## The output buffer -/

section Size

/-- The size of the buffer that `main` makes for the output. -/
def outbufSize (length : ℕ) : ℕ := length + (length + 15) / 16

end Size

end Darwin.Boot.Rcz
