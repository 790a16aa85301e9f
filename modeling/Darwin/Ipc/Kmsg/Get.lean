import Mathlib.Data.BitVec

/-!
# Acquiring a message buffer

A model of `ipc_kmsg_get`.  The call computes three sizes from the sender's 32-bit arguments, takes
a cached or a fresh buffer, copies the message in and, when the sender supplies a trailer, reads its
size from the copied bytes and fetches the rest.  Kernel memory is addressed relative to
`&kmsg->ikm_header` and the sender's memory relative to `msg`, both modulo `2 ^ 32`.

## Main results

* `ipcKmsgGet_inBuffer_iff`: the calls that never leave their buffer are those whose sizes do not
  wrap
* `last_word_leaves_buffer`: a message of `2 ^ 32 - 4` bytes with its own trailer is accepted
-/

namespace Darwin.Ipc.Kmsg

/-- The result codes of `ipc_kmsg_get`, success apart. -/
inductive GetError where
  | sendMsgTooSmall
  | sendInvalidTrailer
  | sendNoBuffer
  | sendInvalidData
  deriving DecidableEq, Repr

/-- `sizeof(mach_msg_header_t)`. -/
def headerSize : ℕ := 24

/-- `IKM_OVERHEAD`: the bytes of a buffer in front of its message header. -/
def ikmOverhead : BitVec 32 := 28#32

/-- `ikm_plus_overhead`. -/
def ikmPlusOverhead (size : BitVec 32) : BitVec 32 := size + ikmOverhead

/-- `IKM_SAVED_KMSG_SIZE`: the size of the buffers that are cached. -/
def ikmSavedKmsgSize : BitVec 32 := 256#32

/-- `IKM_SAVED_MSG_SIZE`. -/
def ikmSavedMsgSize : BitVec 32 := ikmSavedKmsgSize - ikmOverhead

/-- `MACH_MSG_TRAILER_MINIMUM_SIZE`, which is also `sizeof(mach_msg_trailer_t)`. -/
def trailerMinimumSize : BitVec 32 := 8#32

/-- `MACH_MSG_TRAILER_FORMAT_0_SIZE`, which is also `MAX_TRAILER_SIZE`. -/
def maxTrailerSize : BitVec 32 := 20#32

/-- `MACH_SEND_TRAILER`. -/
def machSendTrailer : BitVec 32 := 0x00020000#32

/-! ## Memory -/

/-- The bytes at the 32-bit addresses. -/
abbrev Memory := BitVec 32 → BitVec 8

/-- The word at an address, least significant byte first. -/
def readWord (memory : Memory) (address : BitVec 32) : BitVec 32 :=
  memory (address + 3) ++ memory (address + 2) ++ memory (address + 1) ++ memory address

/-- Store a word, least significant byte first. -/
def writeWord (memory : Memory) (address word : BitVec 32) : Memory := fun a =>
  if (a - address).toNat < 4 then word.extractLsb' (8 * (a - address).toNat) 8 else memory a

/-- The bytes that a successful `copyinmsg` of `len` bytes to `offset` leaves in the buffer.  Both
copies of `ipc_kmsg_get` read at the offset of the sender's memory at which they write. -/
def copyIn (memory user : Memory) (offset len : BitVec 32) : Memory := fun a =>
  if (a - offset).toNat < len.toNat then user a else memory a

/-- `ikm_init_special`: the fields in front of the header, from `ikm_size` to `ikm_delta`. -/
def ikmInitSpecial (memory : Memory) (size : BitVec 32) : Memory :=
  let memory := writeWord memory (-20) size
  let memory := writeWord memory (-16) 0
  let memory := writeWord memory (-12) 0
  let memory := writeWord memory (-8) 0
  writeWord memory (-4) 0

/-- The fields from `ikm_marequest` on are zero in a buffer just initialised. -/
theorem ikmInitSpecial_eq_zero (memory : Memory) (size a : BitVec 32) (high : 2 ^ 32 - 16 ≤ a.toNat) :
    ikmInitSpecial memory size a = 0 := by
  simp only [ikmInitSpecial, writeWord, BitVec.ofNat_eq_ofNat, BitVec.extractLsb'_zero]
  split_ifs with delta high_sender low_sender marequest ikm_size
  · rfl
  · rfl
  · rfl
  · rfl
  all_goals bv_omega

/-! ## The call -/

/-- What a call depends on besides its arguments: whether a buffer is cached, which requests
`kalloc` meets, which copies from the sender succeed, and the two memories. -/
structure GetEnv where
  cached : Bool
  kalloc : BitVec 32 → Bool
  copyinmsg : (offset len : BitVec 32) → Bool
  memory : Memory
  user : Memory

/-- A buffer as `ipc_kmsg_get` returns it.  Besides its fields it carries what was done to it: the
extents copied in and the address the trailer was read at, both relative to the header. -/
structure IpcKmsg where
  ikmSize : BitVec 32
  ikmDelta : BitVec 32
  msghSize : BitVec 32
  copied : List (BitVec 32 × BitVec 32)
  trailer : Option (BitVec 32)
  deriving DecidableEq

/-- `msg_size` and `send_size`: what the buffer must hold and what is copied from the sender. -/
def messageSizes (option size delta : BitVec 32) : Except GetError (BitVec 32 × BitVec 32) :=
  if delta.toInt ≤ 0 then .ok (size, size + delta)
  else if delta &&& 3 ≠ 0 ∨ delta < trailerMinimumSize ∨ delta > maxTrailerSize then
    .error .sendInvalidTrailer
  else
    .ok (size + delta, size + if option &&& machSendTrailer ≠ 0 then trailerMinimumSize else 0)

/-- The buffer taken for `msg_size` bytes: its `ikm_size`. -/
def takeBuffer (env : GetEnv) (msgSize : BitVec 32) : Except GetError (BitVec 32) :=
  if msgSize ≤ ikmSavedMsgSize then
    if env.cached ∨ env.kalloc (ikmPlusOverhead ikmSavedMsgSize) then .ok ikmSavedKmsgSize
    else .error .sendNoBuffer
  else if env.kalloc (ikmPlusOverhead msgSize) then .ok (ikmPlusOverhead msgSize)
  else .error .sendNoBuffer

/-- The processing of a trailer the sender supplies: its size, and the extent of the second copy
if there is one. -/
def takeTrailer (env : GetEnv) (memory : Memory) (size delta : BitVec 32) :
    Except GetError (BitVec 32 × List (BitVec 32 × BitVec 32)) :=
  let trailer := size
  if readWord memory trailer ≠ 0 then .error .sendInvalidTrailer
  else
    let trailerSize := readWord memory (trailer + 4)
    if trailerSize > delta ∨ trailerSize &&& 3 ≠ 0 ∨ trailerSize < trailerMinimumSize ∨
        trailerSize > maxTrailerSize then .error .sendInvalidTrailer
    else if trailerSize > trailerMinimumSize then
      let rest := (trailer + trailerMinimumSize, trailerSize - trailerMinimumSize)
      if env.copyinmsg rest.1 rest.2 then .ok (trailerSize, [rest])
      else .error .sendInvalidTrailer
    else .ok (trailerSize, [])

/-- `ipc_kmsg_get`. -/
def ipcKmsgGet (env : GetEnv) (option size delta : BitVec 32) : Except GetError IpcKmsg :=
  if size.toNat < headerSize ∨ size &&& 3 ≠ 0 then .error .sendMsgTooSmall
  else
    match messageSizes option size delta with
    | .error e => .error e
    | .ok (msgSize, sendSize) =>
      match takeBuffer env msgSize with
      | .error e => .error e
      | .ok ikmSize =>
        if env.copyinmsg 0 sendSize = false then .error .sendInvalidData
        else if delta.toInt ≤ 0 then .ok ⟨ikmSize, delta, size, [(0, sendSize)], none⟩
        else if option &&& machSendTrailer = 0 then
          .ok ⟨ikmSize, 0, size, [(0, sendSize)], none⟩
        else
          let memory := copyIn (ikmInitSpecial env.memory ikmSize) env.user 0 sendSize
          match takeTrailer env memory size delta with
          | .error e => .error e
          | .ok (trailerSize, rest) =>
            .ok ⟨ikmSize, trailerSize, size, (0, sendSize) :: rest, some size⟩

/-! ## Staying inside the buffer -/

/-- What a caller relies on when the call succeeds: the buffer holds the message and its trailer,
everything copied in lies in it, the trailer is read in it, and no sum of sizes has wrapped. -/
structure InBuffer (size delta : BitVec 32) (kmsg : IpcKmsg) : Prop where
  holds : (size.toNat : ℤ) + kmsg.ikmDelta.toInt + ikmOverhead.toNat ≤ kmsg.ikmSize.toNat
  copied : ∀ extent ∈ kmsg.copied,
    extent.1.toNat + extent.2.toNat + ikmOverhead.toNat ≤ kmsg.ikmSize.toNat
  trailer : ∀ address ∈ kmsg.trailer, address.toNat = size.toNat ∧
      address.toNat + trailerMinimumSize.toNat + ikmOverhead.toNat ≤ kmsg.ikmSize.toNat
  delta_noWrap : 0 ≤ size.toNat + delta.toInt ∧ size.toNat + delta.toInt < 2 ^ 32
  overhead_noWrap : size.toNat + ikmOverhead.toNat < 2 ^ 32
  trailer_noWrap : kmsg.trailer.isSome → size.toNat + trailerMinimumSize.toNat < 2 ^ 32

/-- The arguments that pass the checks of `ipc_kmsg_get`. -/
def Accepted (size delta : BitVec 32) : Prop :=
  headerSize ≤ size.toNat ∧ size &&& 3 = 0 ∧ (delta.toInt ≤ 0 ∨
      delta &&& 3 = 0 ∧ trailerMinimumSize.toNat ≤ delta.toNat ∧ delta.toNat ≤ maxTrailerSize.toNat)

/-- The sizes add up below `2 ^ 32`: a padded old message is at least as long as its padding, and
a new one leaves room for its trailer.  A message of `2 ^ 32 - 8` bytes with its own trailer is
also harmless: its trailer would be `ikm_sender` and `ikm_delta`, which are zero. -/
def SizesFit (option size delta : BitVec 32) : Prop :=
  if delta.toInt ≤ 0 then 0 ≤ size.toNat + delta.toInt ∧ size.toNat + ikmOverhead.toNat < 2 ^ 32
  else
    size.toNat + delta.toNat + ikmOverhead.toNat < 2 ^ 32 ∨
      option &&& machSendTrailer ≠ 0 ∧ size.toNat = 2 ^ 32 - 8

section Results

variable {env : GetEnv} {option size delta msgSize sendSize ikmSize : BitVec 32}

/-- The sizes computed for a new message come from a trailer size that is within bounds. -/
private theorem messageSizes_positive (positive : ¬ delta.toInt ≤ 0)
    (sizes : messageSizes option size delta = .ok (msgSize, sendSize)) :
    (delta &&& 3 = 0 ∧ 8 ≤ delta.toNat ∧ delta.toNat ≤ 20) ∧ msgSize = size + delta ∧
      sendSize = size + if option &&& machSendTrailer ≠ 0 then trailerMinimumSize else 0 := by
  unfold messageSizes at sizes
  rw [if_neg positive] at sizes
  split at sizes
  · cases sizes
  rename_i refused
  cases sizes
  simp only [not_or, not_not, trailerMinimumSize, maxTrailerSize] at refused
  refine ⟨⟨refused.1, ?_, ?_⟩, rfl, rfl⟩ <;> bv_omega

/-- The buffer taken holds `msg_size` bytes after its overhead unless their sum wraps. -/
private theorem takeBuffer_ok (taken : takeBuffer env msgSize = .ok ikmSize) :
    ikmSize.toNat = if msgSize.toNat ≤ 228 then 256 else (msgSize.toNat + 28) % 2 ^ 32 := by
  have bound : msgSize ≤ ikmSavedMsgSize ↔ msgSize.toNat ≤ 228 := by
    rw [BitVec.le_def]
    rfl
  unfold takeBuffer at taken
  simp only [bound] at taken
  split at taken
  · rename_i small
    split at taken
    · rw [if_pos small, ← Except.ok.inj taken]
      rfl
    · cases taken
  · rename_i large
    split at taken
    · rw [if_neg large, ← Except.ok.inj taken, ikmPlusOverhead, BitVec.toNat_add]
      rfl
    · cases taken

/-- A trailer that is accepted has a size between the least and the largest, no more than was made
room for, and what is fetched of it lies between its first two words and its end. -/
private theorem takeTrailer_ok {memory : Memory} {trailerSize : BitVec 32}
    {rest : List (BitVec 32 × BitVec 32)}
    (taken : takeTrailer env memory size delta = .ok (trailerSize, rest)) :
    (trailerSize.toNat ≤ delta.toNat ∧ 8 ≤ trailerSize.toNat ∧ trailerSize.toNat ≤ 20) ∧
      trailerSize = readWord memory (size + 4) ∧
      ∀ extent ∈ rest, extent = (size + trailerMinimumSize, trailerSize - trailerMinimumSize) := by
  unfold takeTrailer at taken
  dsimp only at taken
  split at taken
  · cases taken
  split at taken
  · cases taken
  rename_i refused
  simp only [not_or, trailerMinimumSize, maxTrailerSize] at refused
  have bounds : (readWord memory (size + 4)).toNat ≤ delta.toNat ∧
      8 ≤ (readWord memory (size + 4)).toNat ∧ (readWord memory (size + 4)).toNat ≤ 20 := by
    bv_omega
  split at taken
  · split at taken
    · cases taken
      exact ⟨bounds, rfl, fun extent mem => List.mem_singleton.mp mem⟩
    · cases taken
  · cases taken
    exact ⟨bounds, rfl, fun extent mem => absurd mem List.not_mem_nil⟩

/-- What a successful call has done. -/
private theorem ipcKmsgGet_cases {kmsg : IpcKmsg}
    (got : ipcKmsgGet env option size delta = .ok kmsg) :
    (headerSize ≤ size.toNat ∧ size &&& 3 = 0) ∧ ∃ msgSize sendSize ikmSize,
      messageSizes option size delta = .ok (msgSize, sendSize) ∧
      takeBuffer env msgSize = .ok ikmSize ∧
      (delta.toInt ≤ 0 ∧ kmsg = ⟨ikmSize, delta, size, [(0, sendSize)], none⟩ ∨
        ¬ delta.toInt ≤ 0 ∧ option &&& machSendTrailer = 0 ∧
          kmsg = ⟨ikmSize, 0, size, [(0, sendSize)], none⟩ ∨
        ¬ delta.toInt ≤ 0 ∧ option &&& machSendTrailer ≠ 0 ∧ ∃ trailerSize rest,
          takeTrailer env (copyIn (ikmInitSpecial env.memory ikmSize) env.user 0 sendSize) size
            delta = .ok (trailerSize, rest) ∧
          kmsg = ⟨ikmSize, trailerSize, size, (0, sendSize) :: rest, some size⟩) := by
  unfold ipcKmsgGet at got
  split at got
  · cases got
  rename_i header
  refine ⟨by simpa [not_or] using header, ?_⟩
  cases sizes : messageSizes option size delta with
  | error e => simp [sizes] at got
  | ok sizes' =>
    obtain ⟨msgSize, sendSize⟩ := sizes'
    simp only [sizes] at got
    cases taken : takeBuffer env msgSize with
    | error e => simp [taken] at got
    | ok ikmSize =>
      simp only [taken] at got
      refine ⟨msgSize, sendSize, ikmSize, rfl, taken, ?_⟩
      split at got
      · cases got
      split at got
      · rename_i old
        exact .inl ⟨old, (Except.ok.inj got).symm⟩
      rename_i new
      split at got
      · rename_i bare
        exact .inr (.inl ⟨new, bare, (Except.ok.inj got).symm⟩)
      rename_i own
      refine .inr (.inr ⟨new, own, ?_⟩)
      split at got
      · cases got
      · rename_i trailerSize rest trailer
        exact ⟨trailerSize, rest, trailer, (Except.ok.inj got).symm⟩

/-- In front of the header the buffer is zero, so no trailer is found there. -/
private theorem takeTrailer_before_header {memory user : Memory} (place : size.toNat = 2 ^ 32 - 8)
    (result : BitVec 32 × List (BitVec 32 × BitVec 32)) :
    takeTrailer env (copyIn (ikmInitSpecial memory ikmSize) user 0 (size + 8#32)) size delta ≠
      .ok result := by
  intro taken
  obtain ⟨trailerSize, rest⟩ := result
  obtain ⟨⟨-, least, -⟩, read, -⟩ := takeTrailer_ok taken
  have empty : size + 8#32 = 0#32 := by bv_omega
  have untouched : copyIn (ikmInitSpecial memory ikmSize) user 0 (size + 8#32) =
      ikmInitSpecial memory ikmSize := by
    funext a
    simp [copyIn, empty]
  have zero : readWord (ikmInitSpecial memory ikmSize) (size + 4) = 0#32 := by
    unfold readWord
    rw [ikmInitSpecial_eq_zero _ _ _ (by bv_omega), ikmInitSpecial_eq_zero _ _ _ (by bv_omega),
      ikmInitSpecial_eq_zero _ _ _ (by bv_omega), ikmInitSpecial_eq_zero _ _ _ (by bv_omega)]
    rfl
  rw [read, untouched, zero] at least
  exact absurd least (by decide)

/-- A successful call whose sizes fit stays in its buffer. -/
private theorem inBuffer_of_fit {kmsg : IpcKmsg}
    (got : ipcKmsgGet env option size delta = .ok kmsg) (fit : SizesFit option size delta) :
    InBuffer size delta kmsg := by
  obtain ⟨⟨-, -⟩, msgSize, sendSize, ikmSize, sizes, taken, outcome⟩ := ipcKmsgGet_cases got
  have room := takeBuffer_ok taken
  have signed := BitVec.toInt_eq_toNat_cond delta
  rcases outcome with ⟨old, rfl⟩ | ⟨new, bare, rfl⟩ | ⟨new, own, trailerSize, rest, trailer, rfl⟩
  · rw [SizesFit, if_pos old] at fit
    rw [messageSizes, if_pos old] at sizes
    cases sizes
    have sent : (size + delta).toNat ≤ size.toNat := by
      rw [BitVec.toNat_add]
      split_ifs at signed <;> omega
    have room : ikmSize.toNat = max 256 (size.toNat + 28) := by
      simp only [ikmOverhead] at fit
      split_ifs at room <;> bv_omega
    constructor <;> simp [ikmOverhead, trailerMinimumSize] at * <;> omega
  · obtain ⟨⟨-, least, most⟩, rfl, rfl⟩ := messageSizes_positive new sizes
    rw [SizesFit, if_neg new] at fit
    have fit : size.toNat + delta.toNat + 28 < 2 ^ 32 :=
      fit.resolve_right fun harmless => harmless.1 bare
    have sent : size + (if option &&& machSendTrailer ≠ 0 then trailerMinimumSize else 0) = size := by
      rw [if_neg (not_not.mpr bare)]
      exact BitVec.add_zero size
    have room : ikmSize.toNat = max 256 (size.toNat + delta.toNat + 28) := by
      split_ifs at room <;> bv_omega
    rw [sent]
    constructor <;> simp [ikmOverhead, trailerMinimumSize] <;> omega
  · obtain ⟨⟨-, least, most⟩, rfl, rfl⟩ := messageSizes_positive new sizes
    rw [if_pos own] at trailer ⊢
    obtain ⟨⟨within, min, max'⟩, -, fetched⟩ := takeTrailer_ok trailer
    rw [SizesFit, if_neg new] at fit
    rcases fit with fit | ⟨-, place⟩
    swap
    · exact absurd trailer (takeTrailer_before_header place _)
    simp only [ikmOverhead, BitVec.toNat_ofNat] at fit
    have room : ikmSize.toNat = max 256 (size.toNat + delta.toNat + 28) := by
      split_ifs at room <;> bv_omega
    have sent : (size + trailerMinimumSize).toNat = size.toNat + 8 := by
      rw [trailerMinimumSize]
      bv_omega
    have fetched_end : ∀ extent ∈ rest,
        extent.1.toNat + extent.2.toNat = size.toNat + trailerSize.toNat := by
      intro extent mem
      rw [fetched extent mem]
      rw [trailerMinimumSize]
      bv_omega
    have size_signed := BitVec.toInt_eq_toNat_cond trailerSize
    constructor
    · show (size.toNat : ℤ) + trailerSize.toInt + (28 : ℕ) ≤ ikmSize.toNat
      split_ifs at size_signed <;> omega
    · intro extent mem
      rcases List.mem_cons.mp mem with rfl | mem
      · simp [ikmOverhead, sent]
        omega
      · have := fetched_end extent mem
        simp only [ikmOverhead, BitVec.toNat_ofNat]
        omega
    all_goals
      simp [ikmOverhead, trailerMinimumSize]
      omega

end Results

section Exactness

variable {option size delta : BitVec 32}

/-- An environment that refuses nothing and sends a trailer of the minimum size. -/
def generousEnv (size : BitVec 32) : GetEnv where
  cached := false
  kalloc _ := true
  copyinmsg _ _ := true
  memory _ := 0
  user a := if a = size + 4 then 8 else 0

private theorem generousEnv_takeBuffer (size msgSize : BitVec 32) :
    ∃ ikmSize, takeBuffer (generousEnv size) msgSize = .ok ikmSize := by
  unfold takeBuffer generousEnv
  split <;> simp

private theorem generousEnv_messageSizes (accepted : Accepted size delta)
    (new : ¬ delta.toInt ≤ 0) :
    messageSizes option size delta = .ok (size + delta,
      size + if option &&& machSendTrailer ≠ 0 then trailerMinimumSize else 0) := by
  obtain ⟨aligned, least, most⟩ := accepted.2.2.resolve_left new
  have bounds : ¬ (delta &&& 3 ≠ 0 ∨ delta < trailerMinimumSize ∨ delta > maxTrailerSize) := by
    simp only [not_or, not_not]
    refine ⟨aligned, ?_, ?_⟩ <;> bv_omega
  rw [messageSizes, if_neg new, if_neg bounds]

@[simp] private theorem generousEnv_copyinmsg (offset len : BitVec 32) :
    (generousEnv size).copyinmsg offset len = true := rfl

private theorem toNat_mod_four (aligned : size &&& 3 = 0) : size.toNat % 4 = 0 := by
  have word : (size &&& 3).toNat = 0 := by
    rw [aligned]
    rfl
  rw [BitVec.toNat_and] at word
  exact (Nat.and_two_pow_sub_one_eq_mod size.toNat 2).symm.trans word

/-- Unless the message ends eight bytes below `2 ^ 32`, the trailer read is the one sent; four
bytes below, its first word is the cleared `ikm_delta`. -/
private theorem generousEnv_trailer (memory : Memory) (ikmSize i : BitVec 32)
    (aligned : size.toNat % 4 = 0) (elsewhere : size.toNat ≠ 2 ^ 32 - 8) (inside : i.toNat < 8) :
    copyIn (ikmInitSpecial memory ikmSize) (generousEnv size).user 0 (size + trailerMinimumSize)
      (size + i) = if i = 4 then 8 else 0 := by
  have same : size + i = size + 4 ↔ i = 4 := by
    constructor <;> intro h <;> bv_omega
  simp only [copyIn, generousEnv, same, trailerMinimumSize]
  split_ifs with covered fourth fourth
  · rfl
  · rfl
  · bv_omega
  · exact ikmInitSpecial_eq_zero _ _ _ (by bv_omega)

private theorem generousEnv_takeTrailer (memory : Memory) (ikmSize delta : BitVec 32)
    (aligned : size.toNat % 4 = 0) (least : 8 ≤ delta.toNat)
    (elsewhere : size.toNat ≠ 2 ^ 32 - 8) :
    takeTrailer (generousEnv size)
      (copyIn (ikmInitSpecial memory ikmSize) (generousEnv size).user 0 (size + trailerMinimumSize))
      size delta = .ok (8, []) := by
  have byte := fun i => generousEnv_trailer memory ikmSize i aligned elsewhere
  have kind : readWord (copyIn (ikmInitSpecial memory ikmSize) (generousEnv size).user 0
      (size + trailerMinimumSize)) size = 0 := by
    have first := byte 0 (by decide)
    rw [show size + 0 = size from BitVec.add_zero size] at first
    rw [readWord, first, byte 1 (by decide), byte 2 (by decide), byte 3 (by decide)]
    rfl
  have length : readWord (copyIn (ikmInitSpecial memory ikmSize) (generousEnv size).user 0
      (size + trailerMinimumSize)) (size + 4) = 8 := by
    rw [readWord, BitVec.add_assoc, BitVec.add_assoc, BitVec.add_assoc, byte (4 + 3) (by decide),
      byte (4 + 2) (by decide), byte (4 + 1) (by decide), byte 4 (by decide)]
    rfl
  have accepted : ¬ ((8 : BitVec 32) > delta ∨ (8 : BitVec 32) &&& 3 ≠ 0 ∨
      (8 : BitVec 32) < trailerMinimumSize ∨ (8 : BitVec 32) > maxTrailerSize) := by
    rintro (h | h | h | h)
    · bv_omega
    all_goals exact absurd h (by decide)
  unfold takeTrailer
  rw [if_neg (not_not.mpr kind), length, if_neg accepted, if_neg (by decide)]

private theorem generousEnv_leaves (accepted : Accepted size delta)
    (wraps : ¬ SizesFit option size delta) :
    ∃ kmsg, ipcKmsgGet (generousEnv size) option size delta = .ok kmsg ∧
      ¬ InBuffer size delta kmsg := by
  have header : ¬ (size.toNat < headerSize ∨ size &&& 3 ≠ 0) := by
    simp only [not_or, not_not]
    exact ⟨not_lt.mpr accepted.1, accepted.2.1⟩
  by_cases old : delta.toInt ≤ 0
  · obtain ⟨ikmSize, taken⟩ := generousEnv_takeBuffer size size
    refine ⟨⟨ikmSize, delta, size, [(0, size + delta)], none⟩, ?_, fun inside => wraps ?_⟩
    · rw [ipcKmsgGet, if_neg header]
      simp only [messageSizes, if_pos old, taken]
      simp
    · rw [SizesFit, if_pos old]
      exact ⟨inside.delta_noWrap.1, inside.overhead_noWrap⟩
  have sizes : messageSizes option size delta = _ := generousEnv_messageSizes accepted old
  obtain ⟨ikmSize, taken⟩ := generousEnv_takeBuffer size (size + delta)
  have room := takeBuffer_ok taken
  have signed := BitVec.toInt_eq_toNat_cond delta
  rw [SizesFit, if_neg old, not_or] at wraps
  simp only [ikmOverhead, BitVec.toNat_ofNat] at wraps
  -- with any trailer the sum reaches `2 ^ 32`, so the buffer is smaller than its own overhead
  have tooSmall : ∀ (given : BitVec 32) copied trailer, 0 ≤ given.toInt →
      ¬ InBuffer size delta ⟨ikmSize, given, size, copied, trailer⟩ := by
    intro given copied trailer nonneg inside
    have holds := inside.holds
    simp only [ikmOverhead, BitVec.toNat_ofNat] at holds
    rw [BitVec.toNat_add] at room
    split_ifs at room signed <;> omega
  by_cases bare : option &&& machSendTrailer = 0
  · refine ⟨⟨ikmSize, 0, size, [(0, size + 0)], none⟩, ?_, tooSmall 0 _ _ (by decide)⟩
    rw [ipcKmsgGet, if_neg header, sizes, if_neg (not_not.mpr bare)]
    simp only [taken]
    simp [old, bare]
  · have elsewhere : size.toNat ≠ 2 ^ 32 - 8 := fun place => wraps.2 ⟨bare, place⟩
    have trailer := generousEnv_takeTrailer (generousEnv size).memory ikmSize delta
      (toNat_mod_four accepted.2.1) (accepted.2.2.resolve_left old).2.1 elsewhere
    refine ⟨⟨ikmSize, 8, size, [(0, size + trailerMinimumSize)], some size⟩, ?_,
      tooSmall 8 _ _ (by decide)⟩
    rw [ipcKmsgGet, if_neg header, sizes, if_pos bare]
    simp only [taken, trailer]
    simpa [old] using bare

private theorem ipcKmsgGet_accepted {env : GetEnv} {kmsg : IpcKmsg}
    (got : ipcKmsgGet env option size delta = .ok kmsg) : Accepted size delta := by
  obtain ⟨⟨header, aligned⟩, msgSize, sendSize, ikmSize, sizes, -, -⟩ := ipcKmsgGet_cases got
  refine ⟨header, aligned, ?_⟩
  by_cases old : delta.toInt ≤ 0
  · exact .inl old
  · exact .inr (messageSizes_positive old sizes).1

/-- **The calls that never leave their buffer.**  Whatever the memories hold and whichever
allocations and copies succeed, a call that succeeds keeps inside its buffer exactly when its
arguments are refused at once or their sums do not wrap. -/
theorem ipcKmsgGet_inBuffer_iff (option size delta : BitVec 32) :
    (∀ env kmsg, ipcKmsgGet env option size delta = .ok kmsg → InBuffer size delta kmsg) ↔
      (Accepted size delta → SizesFit option size delta) := by
  constructor
  · intro inside accepted
    by_contra wraps
    obtain ⟨kmsg, got, leaves⟩ := generousEnv_leaves accepted wraps
    exact leaves (inside _ _ got)
  · intro fit env kmsg got
    exact inBuffer_of_fit got (fit (ipcKmsgGet_accepted got))

/-- A message of `2 ^ 32 - 4` bytes sent with its own trailer is accepted: the sums wrap to a
buffer of the cached size, and `msgh_bits` is taken for the size of the trailer. -/
theorem last_word_leaves_buffer :
    ∃ kmsg, ipcKmsgGet (generousEnv 0xfffffffc) machSendTrailer 0xfffffffc 20 = .ok kmsg ∧
      ¬ InBuffer 0xfffffffc 20 kmsg := by
  refine ⟨⟨256, 8, 0xfffffffc, [(0, 4)], some 0xfffffffc⟩, rfl, fun inside => ?_⟩
  exact absurd inside.holds (by decide)

end Exactness

end Darwin.Ipc.Kmsg
