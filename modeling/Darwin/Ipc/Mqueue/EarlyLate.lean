import Mathlib.Data.List.TakeWhile
import Darwin.Ipc.Mqueue.Receive

/-!
# Receiving early and receiving late

A receive finds its message in the queue, or it sleeps until `ipc_mqueue_send` hands it one.  The
checks on the message are written out separately for the two cases.  Here they are shown to agree
(`offer_eq_examine`), and the outcome of a receive is shown to be the same in both cases except when
the sender could not allocate a new scatter list for the receiver: the resumed receive then panics
on the code that an early receive returns.

## Main results

* `receive_early_iff_late`: the outcomes agree exactly when no such allocation fails.
* `late_panics_on_allocation_failure`: a message for which they do not.
-/

namespace Darwin.Ipc

/-! ## Outcomes -/

/-- What can be observed of a receive: its result, the queue afterwards, the next sequence number
and the caller's scatter list. -/
structure ReceiveOutcome where
  result : ReceiveResult
  queued : List Kmsg
  seqno : ℕ
  list : Option (List Descriptor)
  deriving DecidableEq, Repr

/-- The message is queued when the receive starts. -/
def receiveEarly (k : Kernel) (kmsg : Kmsg) (call : ReceiveCall) (seqno : ℕ) :
    Option ReceiveOutcome :=
  (receiveQueued k { messages := [kmsg], threads := [], seqno := seqno } call).map
    fun (result, q, list) => ⟨result, q.messages, q.seqno, list⟩

/-- The receive blocks on an empty queue, and the message is sent then. -/
def receiveLate (k : Kernel) (kmsg : Kmsg) (call : ReceiveCall) (seqno : ℕ) (self : Receiver)
    (why : WaitResult) : Option ReceiveOutcome :=
  match sendDeliver k kmsg (block { messages := [], threads := [], seqno := seqno } call self) with
  | (_, []) => none
  | (q, th :: _) => some ⟨resumeReceive th why, q.messages, q.seqno, th.list⟩

/-! ## Scatter lists that are too small -/

/-- The type of a scatter descriptor is the one its gather descriptor asks for. -/
def TypesMatch (gather scatter : Descriptor) : Prop :=
  if gather.type = machMsgOolDescriptor then scatter.type = machMsgOolDescriptor
  else scatter.type = machMsgOolPortsDescriptor

/-- A scatter descriptor asks for an overwrite of a region smaller than the data. -/
def OverwriteSmall (gather scatter : Descriptor) : Prop :=
  scatter.copy = machMsgOverwrite ∧ gather.size > scatter.size

/-- The descriptors other than port descriptors. -/
def outOfLine (ds : List Descriptor) : List Descriptor :=
  ds.filter fun d => d.type ≠ machMsgPortDescriptor

/-- The pairs of gather and scatter descriptors that are compared. -/
def scatterPairs (gather scatter : List Descriptor) : List (Descriptor × Descriptor) :=
  (outOfLine gather).zip (outOfLine scatter)

/-- The scatter list has the right types but not the right sizes. -/
def SizeMismatch (gather scatter : List Descriptor) : Prop :=
  (scatter = [] ∧ outOfLine gather ≠ []) ∨
  (∀ p ∈ scatterPairs gather scatter, TypesMatch p.1 p.2) ∧
    ∃ p ∈ scatterPairs gather scatter, OverwriteSmall p.1 p.2

/-- A receiver of the new format, with `MACH_RCV_LARGE` and a scatter list of the wrong sizes, gets
a message that fits its buffer, and there is no memory for a corrected scatter list. -/
structure ScatterAllocationFails (k : Kernel) (kmsg : Kmsg) (call : ReceiveCall) : Prop where
  newMessage : kmsg.oldFormat = false
  newReceiver : hasFlag call.option machRcvOldFormat = false
  fits : kmsg.size ≤ call.maxSize - requestedTrailerSize k.beyondTrailers call.option
  complex : kmsg.complex = true
  large : hasFlag call.option machRcvLarge = true
  mismatch : ∃ list, call.list = some list ∧ SizeMismatch kmsg.descriptors list
  noMemory : k.ikmAlloc (newListSize kmsg) = none

/-! ## The scatter check -/

variable {ds rest gs ss : List Descriptor} {sizeError large empty : Bool} {k : Kernel} {kmsg : Kmsg}
  {call : ReceiveCall}

theorem outOfLine_of_dropWhile_nil
    (skipped : ds.dropWhile (fun d => d.type = machMsgPortDescriptor) = []) : outOfLine ds = [] := by
  simp only [List.dropWhile_eq_nil_iff, decide_eq_true_eq] at skipped
  simp only [outOfLine, List.filter_eq_nil_iff, decide_eq_true_eq, not_not, ne_eq]
  exact skipped

theorem outOfLine_of_dropWhile_cons {d : Descriptor}
    (skipped : ds.dropWhile (fun d => d.type = machMsgPortDescriptor) = d :: rest) :
    outOfLine ds = d :: outOfLine rest := by
  induction ds with
  | nil => simp at skipped
  | cons e ds ih =>
    by_cases port : e.type = machMsgPortDescriptor
    · rw [List.dropWhile_cons_of_pos (by simpa using port)] at skipped
      rw [outOfLine, List.filter_cons_of_neg (by simpa using port)]
      exact ih skipped
    rw [List.dropWhile_cons_of_neg (by simpa using port)] at skipped
    obtain ⟨rfl, rfl⟩ := List.cons.inj skipped
    rw [outOfLine, List.filter_cons_of_pos (by simpa using port)]
    rfl

/-- One comparison of the loop, with `MACH_RCV_LARGE`, in terms of the two predicates above. -/
theorem scatterLoop_cons_true {gather scatter : Descriptor} (notPort : gather.type ≠ machMsgPortDescriptor)
    (next : ss.dropWhile (fun d => d.type = machMsgPortDescriptor) = scatter :: rest) :
    scatterLoop true false (gather :: gs) ss sizeError = .ok true ↔ TypesMatch gather scatter ∧
        ((OverwriteSmall gather scatter ∧ scatterLoop true false gs rest true = .ok true) ∨
          (¬ OverwriteSmall gather scatter ∧
            scatterLoop true false gs rest sizeError = .ok true)) := by
  rw [scatterLoop, if_neg notPort, next]
  by_cases small : OverwriteSmall gather scatter
  · have small' : scatter.copy = machMsgOverwrite ∧ gather.size > scatter.size := small
    by_cases ool : gather.type = machMsgOolDescriptor
    · by_cases matched : scatter.type = machMsgOolDescriptor <;>
        simp [TypesMatch, ool, matched, small, small'.1, small'.2]
    · by_cases matched : scatter.type = machMsgOolPortsDescriptor <;>
        simp [TypesMatch, ool, matched, small, small'.1, small'.2]
  · have small' : ¬ (scatter.copy = machMsgOverwrite ∧ gather.size > scatter.size) := small
    by_cases ool : gather.type = machMsgOolDescriptor
    · by_cases matched : scatter.type = machMsgOolDescriptor <;>
        simp [TypesMatch, ool, matched, small, small']
    · by_cases matched : scatter.type = machMsgOolPortsDescriptor <;>
        simp [TypesMatch, ool, matched, small, small']

/-- The loop finds a size error in a non-empty scatter list exactly when all the compared types
match and some size does not (or an error was found before). -/
theorem scatterLoop_true_iff (gs : List Descriptor) (ss : List Descriptor) (sizeError : Bool) :
    scatterLoop true false gs ss sizeError = .ok true ↔
      (∀ p ∈ scatterPairs gs ss, TypesMatch p.1 p.2) ∧
        (sizeError = true ∨ ∃ p ∈ scatterPairs gs ss, OverwriteSmall p.1 p.2) := by
  induction gs generalizing ss sizeError with
  | nil => simp [scatterLoop, scatterPairs, outOfLine]
  | cons gather gs ih =>
    by_cases port : gather.type = machMsgPortDescriptor
    · have skip : scatterPairs (gather :: gs) ss = scatterPairs gs ss := by
        simp [scatterPairs, outOfLine, port]
      rw [scatterLoop, if_pos port, skip]
      exact ih ss sizeError
    · have first : outOfLine (gather :: gs) = gather :: outOfLine gs := by
        simp [outOfLine, port]
      cases next : ss.dropWhile (fun d => d.type = machMsgPortDescriptor) with
      | nil =>
        rw [scatterLoop, if_neg port, next]
        simp [scatterPairs, outOfLine_of_dropWhile_nil next]
      | cons scatter rest =>
        have pairs : scatterPairs (gather :: gs) ss = (gather, scatter) :: scatterPairs gs rest := by
          rw [scatterPairs, first, outOfLine_of_dropWhile_cons next, List.zip_cons_cons]
          rfl
        rw [scatterLoop_cons_true port next, pairs, ih, ih]
        by_cases small : OverwriteSmall gather scatter
        · simp [small]
        · simp [small, and_assoc]

/-- With an empty scatter list the loop stops at the first descriptor that needs one. -/
theorem scatterLoop_empty_iff (gs : List Descriptor) :
    scatterLoop true true gs [] false = .ok true ↔ outOfLine gs ≠ [] := by
  induction gs with
  | nil => simp [scatterLoop, outOfLine]
  | cons gather gs ih =>
    by_cases port : gather.type = machMsgPortDescriptor
    · rw [scatterLoop, if_pos port, ih]
      simp [outOfLine, port]
    · rw [scatterLoop, if_neg port]
      simp [outOfLine, port]

theorem scatterLoop_mismatch_iff (gs ss : List Descriptor) :
    scatterLoop true ss.isEmpty gs ss false = .ok true ↔ SizeMismatch gs ss := by
  cases ss with
  | nil =>
    rw [List.isEmpty_nil, scatterLoop_empty_iff, SizeMismatch]
    simp [scatterPairs, outOfLine]
  | cons s ss =>
    rw [List.isEmpty_cons, scatterLoop_true_iff, SizeMismatch]
    simp

/-- The codes that the loop returns by itself. -/
theorem scatterLoop_error
    {code : MachMsgReturn} (failed : scatterLoop large empty gs ss sizeError = .error code) :
    code = machRcvInvalidType ∨ code = machRcvScatterSmall ∧ large = false := by
  fun_induction scatterLoop large empty gs ss sizeError <;> grind

/-- Without `MACH_RCV_LARGE` a size error ends the loop. -/
theorem scatterLoop_not_large {found : Bool}
    (returned : scatterLoop large empty gs ss sizeError = .ok found) (small : large = false) :
    found = sizeError := by
  fun_induction scatterLoop large empty gs ss sizeError <;> grind

/-- The codes of `ipc_kmsg_check_scatter`; the last is the only one that depends on memory. -/
theorem checkScatter_code (k : Kernel) (kmsg : Kmsg) (option : BitVec 32) (list : List Descriptor) :
    (checkScatter k kmsg option list).1 = machMsgSuccess ∨
    (checkScatter k kmsg option list).1 = machRcvInvalidType ∨
    (checkScatter k kmsg option list).1 = machRcvScatterSmall ∨
    ((checkScatter k kmsg option list).1 = machMsgVmKernel ||| machRcvBodyError ∧
      hasFlag option machRcvLarge = true ∧ SizeMismatch kmsg.descriptors list ∧
      k.ikmAlloc (newListSize kmsg) = none) := by
  rw [checkScatter]
  cases loop : scatterLoop (hasFlag option machRcvLarge) list.isEmpty kmsg.descriptors list false with
  | error code =>
    rcases scatterLoop_error loop with rfl | ⟨rfl, -⟩
    · exact .inr (.inl rfl)
    · exact .inr (.inr (.inl rfl))
  | ok sizeError =>
    cases sizeError with
    | false => exact .inl rfl
    | true =>
      have large : hasFlag option machRcvLarge = true := by
        by_contra small
        exact absurd (scatterLoop_not_large loop (by simpa using small)) (by decide)
      rw [large, scatterLoop_mismatch_iff] at loop
      cases memory : k.ikmAlloc (newListSize kmsg) with
      | none => exact .inr (.inr (.inr ⟨rfl, large, loop, rfl⟩))
      | some old => exact .inr (.inr (.inl rfl))

theorem checkScatter_noMemory {option : BitVec 32}
    {list : List Descriptor} (large : hasFlag option machRcvLarge = true)
    (mismatch : SizeMismatch kmsg.descriptors list)
    (noMemory : k.ikmAlloc (newListSize kmsg) = none) :
    checkScatter k kmsg option list = (machMsgVmKernel ||| machRcvBodyError, list) := by
  rw [checkScatter, large, (scatterLoop_mismatch_iff _ _).mpr mismatch]
  simp only [noMemory]

/-! ## The two sets of checks -/

/-- The codes with which a receive can leave the examination of a message. -/
def Examined.Allowed (k : Kernel) (kmsg : Kmsg) (call : ReceiveCall) : Examined → Prop
  | .dequeue state =>
    state = machMsgSuccess ∨ state = machRcvHeaderError ∨
      ((state = machRcvTooLarge ∨ state = machRcvScatterSmall) ∧
        hasFlag call.option machRcvLarge = false ∧ hasFlag call.option machRcvOldFormat = false)
  | .reportSize state =>
    (state = machRcvTooLarge ∨ state = machRcvScatterSmall) ∧
      (hasFlag call.option machRcvLarge = true ∨ hasFlag call.option machRcvOldFormat = true)
  | .giveUp state =>
    state = machRcvInvalidType ∨
      (state = machMsgVmKernel ||| machRcvBodyError ∧ ScatterAllocationFails k kmsg call)

theorem examine_allowed (k : Kernel) (kmsg : Kmsg) (call : ReceiveCall) :
    (examine k kmsg call).1.Allowed k kmsg call := by
  rw [examine]
  by_cases old : kmsg.oldFormat = true
  · rw [if_pos old]
    split
    · exact .inr (.inl rfl)
    rename_i oldReceiver
    split
    · exact ⟨.inl rfl, .inr (by simpa using oldReceiver)⟩
    · exact .inl rfl
  · rw [if_neg old]
    split
    · split
      · exact .inr (.inl rfl)
      · exact .inl rfl
    rename_i newReceiver
    split
    · split
      · rename_i large
        exact ⟨.inl rfl, .inl large⟩
      · rename_i large
        exact .inr (.inr ⟨.inl rfl, by simpa using large, by simpa using newReceiver⟩)
    · rename_i fits
      cases complex : kmsg.complex with
      | false => exact .inl rfl
      | true =>
        cases lists : call.list with
        | none => exact .inl rfl
        | some list =>
          rcases checkScatter_code k kmsg call.option list with code | code | code |
            ⟨code, large, mismatch, noMemory⟩
          · simp only [code, ne_eq, not_true_eq_false, if_false]
            exact .inl rfl
          · simp only [code]
            exact .inl rfl
          · simp only [code]
            by_cases large : hasFlag call.option machRcvLarge = true
            · rw [if_pos (by decide), if_neg (by decide), if_pos large]
              exact ⟨.inr rfl, .inl large⟩
            · rw [if_pos (by decide), if_neg (by decide), if_neg large]
              exact .inr (.inr ⟨.inr rfl, by simpa using large, by simpa using newReceiver⟩)
          · simp only [code]
            exact .inr ⟨rfl, by simpa using old, by simpa using newReceiver, by simpa using fits,
              complex, large, ⟨list, lists, mismatch⟩, noMemory⟩

/-- A failed allocation makes the receive give up with a code of its own. -/
theorem examine_of_allocationFails (fails : ScatterAllocationFails k kmsg call) :
    examine k kmsg call = (.giveUp (machMsgVmKernel ||| machRcvBodyError), call.list) := by
  obtain ⟨list, lists, mismatch⟩ := fails.mismatch
  have fits : ¬ kmsg.size > call.maxSize - requestedTrailerSize k.beyondTrailers call.option := by
    simpa using fails.fits
  rw [examine, if_neg (by simp [fails.newMessage]), if_neg (by simp [fails.newReceiver]),
    if_neg fits, fails.complex, lists]
  simp only [checkScatter_noMemory fails.large mismatch fails.noMemory]
  rfl

/-- The thread that `ipc_mqueue_receive` puts to sleep. -/
def waiting (call : ReceiveCall) (self : Receiver) : Receiver :=
  { self with
    state := machRcvInProgress
    rcvOption := call.option
    msize := call.maxSize
    list := call.list }

/-- The thread that a sender wakes, if the sender comes to the given verdict. -/
def verdict (kmsg : Kmsg) (th : Receiver) :
    Examined × Option (List Descriptor) → Receiver × Bool
  | (.dequeue state, list) => ({ th with state := state, list := list }, true)
  | (.reportSize state, list) =>
    ({ th with state := state, list := list, msize := kmsg.size }, false)
  | (.giveUp state, list) => ({ th with state := state, list := list }, false)

/-- The checks a sender makes for a sleeping receiver come to the same verdict as those the receiver
makes itself. -/
theorem offer_eq_examine (k : Kernel) (kmsg : Kmsg) (call : ReceiveCall) (self : Receiver) :
    offer k kmsg (waiting call self) =
      verdict kmsg (waiting call self) (examine k kmsg call) := by
  rw [offer, examine]
  dsimp +instances only [waiting]
  by_cases old : kmsg.oldFormat = true
  · by_cases oldReceiver : hasFlag call.option machRcvOldFormat = true
    · by_cases large : kmsg.size > call.maxSize
      · have large' : ¬ kmsg.size ≤ call.maxSize := BitVec.not_le.mpr large
        simp only [old, oldReceiver, large, large', if_true, if_false, Bool.not_true,
          Bool.false_eq_true, verdict]
      · have fits : kmsg.size ≤ call.maxSize := BitVec.not_lt.mp large
        simp only [old, oldReceiver, large, fits, if_true, if_false, Bool.not_true,
          Bool.false_eq_true, verdict]
    · simp only [old, oldReceiver, if_true, Bool.not_false, verdict]
  · rw [if_neg old, if_neg old]
    by_cases oldReceiver : hasFlag call.option machRcvOldFormat = true
    · rw [if_pos oldReceiver, if_pos oldReceiver]
      split <;> rfl
    rw [if_neg oldReceiver, if_neg oldReceiver]
    split
    · split <;> rfl
    cases kmsg.complex with
    | false => rfl
    | true =>
      cases call.list with
      | none => rfl
      | some list =>
        dsimp only
        split
        · split
          · rfl
          · split <;> rfl
        · rfl

/-! ## The outcomes -/

theorem hasFlag_or (word a b : BitVec 32) :
    hasFlag word (a ||| b) = (hasFlag word a || hasFlag word b) := by
  rw [Bool.eq_iff_iff]
  simp only [hasFlag, BitVec.and_or_distrib_left, bne_iff_ne, ne_eq, BitVec.or_eq_zero_iff,
    Bool.or_eq_true, not_and_or]

theorem resumeReceive_tooSmall {th : Receiver} {why : WaitResult}
    (tooSmall : th.state = machRcvTooLarge ∨ th.state = machRcvScatterSmall) :
    resumeReceive th why =
      if hasFlag th.rcvOption machRcvLarge = true ∨ hasFlag th.rcvOption machRcvOldFormat = true then
        .size th.state th.msize
      else
        .message th.state th.kmsg th.seqno := by
  have notSuccess : th.state ≠ machMsgSuccess := by
    rcases tooSmall with h | h <;> rw [h] <;> decide
  have notType : th.state ≠ machRcvInvalidType := by
    rcases tooSmall with h | h <;> rw [h] <;> decide
  simp only [resumeReceive]
  rw [if_neg notSuccess, if_neg notType, if_pos tooSmall, hasFlag_or]
  by_cases flags : hasFlag th.rcvOption machRcvLarge = true ∨
      hasFlag th.rcvOption machRcvOldFormat = true
  · rw [if_pos flags, Bool.or_eq_true_iff.mpr flags]
    rfl
  have none : (hasFlag th.rcvOption machRcvLarge || hasFlag th.rcvOption machRcvOldFormat) =
      false := by
    simpa using flags
  rw [if_neg flags, none]
  rfl

theorem receiveLate_eq (k : Kernel) (kmsg : Kmsg) (call : ReceiveCall) (seqno : ℕ)
    (self : Receiver) (why : WaitResult) :
    receiveLate k kmsg call seqno self why =
      match examine k kmsg call with
      | (.dequeue state, list) =>
        some ⟨resumeReceive { waiting call self with
          state := state, list := list, kmsg := kmsg, seqno := seqno } why, [], seqno + 1, list⟩
      | (.reportSize state, list) =>
        some ⟨resumeReceive { waiting call self with
          state := state, list := list, msize := kmsg.size } why, [kmsg], seqno, list⟩
      | (.giveUp state, list) =>
        some ⟨resumeReceive { waiting call self with state := state, list := list } why,
          [kmsg], seqno, list⟩ := by
  have asleep : (block { messages := [], threads := [], seqno := seqno } call self).threads =
      [waiting call self] := rfl
  rw [receiveLate, sendDeliver, asleep, deliver, offer_eq_examine]
  rcases examine k kmsg call with ⟨state | state | state, list⟩ <;> rfl

theorem receiveEarly_eq (k : Kernel) (kmsg : Kmsg) (call : ReceiveCall) (seqno : ℕ) :
    receiveEarly k kmsg call seqno =
      match examine k kmsg call with
      | (.dequeue state, list) => some ⟨.message state kmsg seqno, [], seqno + 1, list⟩
      | (.reportSize state, list) => some ⟨.size state kmsg.size, [kmsg], seqno, list⟩
      | (.giveUp state, list) => some ⟨.code state, [kmsg], seqno, list⟩ := by
  rw [receiveEarly, receiveQueued]
  dsimp only
  rcases examine k kmsg call with ⟨state | state | state, list⟩ <;> rfl

theorem receiveEarly_ne_panic {seqno : ℕ}
    {outcome : ReceiveOutcome} (returned : receiveEarly k kmsg call seqno = some outcome) :
    outcome.result ≠ .panic := by
  rw [receiveEarly_eq] at returned
  generalize examine k kmsg call = examined at returned
  rcases examined with ⟨state | state | state, list⟩ <;>
  · cases returned
    exact ReceiveResult.noConfusion

/-- If no allocation fails, the resumed receive decodes what the sender left for it to what an early
receive returns. -/
theorem receiveLate_eq_receiveEarly
    (noFailure : ¬ ScatterAllocationFails k kmsg call) (seqno : ℕ) (self : Receiver)
    (why : WaitResult) :
    receiveLate k kmsg call seqno self why = receiveEarly k kmsg call seqno := by
  have allowed := examine_allowed k kmsg call
  rw [receiveLate_eq, receiveEarly_eq]
  generalize examine k kmsg call = examined at allowed ⊢
  rcases examined with ⟨state | state | state, list⟩
  · rcases allowed with rfl | rfl | ⟨tooSmall, small, newReceiver⟩
    · rfl
    · rfl
    · dsimp only
      rw [resumeReceive_tooSmall tooSmall, if_neg (by simp [waiting, small, newReceiver])]
  · obtain ⟨tooSmall, flags⟩ := allowed
    dsimp only
    rw [resumeReceive_tooSmall tooSmall, if_pos (by simpa [waiting] using flags)]
  · rcases allowed with rfl | ⟨-, fails⟩
    · rfl
    · exact absurd fails noFailure

/-- A receive has the same outcome, and does not panic, whether its message is queued before or
handed over by a sender, exactly if no allocation of a scatter list fails on the way. -/
theorem receive_early_iff_late (k : Kernel) (kmsg : Kmsg) (call : ReceiveCall) (seqno : ℕ)
    (self : Receiver) (why : WaitResult) :
    (receiveLate k kmsg call seqno self why = receiveEarly k kmsg call seqno ∧
      ∀ outcome, receiveLate k kmsg call seqno self why = some outcome → outcome.result ≠ .panic) ↔
      ¬ ScatterAllocationFails k kmsg call := by
  constructor
  · rintro ⟨-, calm⟩ fails
    rw [receiveLate_eq, examine_of_allocationFails fails] at calm
    exact calm _ rfl rfl
  · intro noFailure
    have same := receiveLate_eq_receiveEarly noFailure seqno self why
    exact ⟨same, fun outcome returned => receiveEarly_ne_panic (same ▸ returned)⟩

section Sample

/-- A complex message with one out-of-line region of 100 bytes. -/
def oolMessage : Kmsg where
  bits := machMsghBitsComplex
  size := 40#32
  descriptors := [⟨machMsgOolDescriptor, 1#8, 100#32⟩]

/-- A receive with `MACH_RCV_LARGE` into a large buffer, with an overwrite region of 50 bytes. -/
def largeReceive : ReceiveCall where
  option := machRcvLarge
  maxSize := 1000#32
  list := some [⟨machMsgOolDescriptor, machMsgOverwrite, 50#32⟩]

/-- A thread before it sleeps. -/
def someReceiver : Receiver where
  state := machMsgSuccess
  rcvOption := 0#32
  msize := 0#32
  list := none
  kmsg := oolMessage
  seqno := 0

/-- Without memory for the new scatter list, an early receive returns the error and a late one
panics. -/
theorem late_panics_on_allocation_failure :
    receiveEarly ⟨fun _ => 0#32, fun _ => none⟩ oolMessage largeReceive 7 =
      some ⟨.code (machMsgVmKernel ||| machRcvBodyError), [oolMessage], 7, largeReceive.list⟩ ∧
    receiveLate ⟨fun _ => 0#32, fun _ => none⟩ oolMessage largeReceive 7 someReceiver .timedOut =
      some ⟨.panic, [oolMessage], 7, largeReceive.list⟩ := by
  decide

end Sample

end Darwin.Ipc
