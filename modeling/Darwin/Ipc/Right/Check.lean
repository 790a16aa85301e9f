import Darwin.Ipc.Right.Basic

/-!
# The prediction of a copyin

`ipc_right_copyin_check` decides in advance whether `ipc_right_copyin` will succeed.  When the port
of the entry has died, the copyin turns it into a dead name and may take a user reference; its undo
gives the reference back.

## Main results

* `rightCopyin_isOk`: the prediction is exact
* `check_predicts`: the prediction is exact, and a copyin of a dead right can be undone
-/

namespace Darwin.BitField

variable {w : ℕ} {a b mask : BitVec w} {k : ℕ}

/-- Words that agree above their low bits have the same fields there. -/
theorem and_eq_of_high (same : a >>> k = b >>> k) (high : (mask >>> k) <<< k = mask) :
    a &&& mask = b &&& mask := by
  refine BitVec.eq_of_getLsbD_eq fun i mem => ?_
  rw [BitVec.getLsbD_and, BitVec.getLsbD_and]
  by_cases low : i < k
  · have bit := congrArg (fun x => x.getLsbD i) high
    have clear : mask.getLsbD i = false := by
      rw [← bit]
      simp [low]
    rw [clear, Bool.and_false, Bool.and_false]
  · have bit := congrArg (fun x => x.getLsbD (i - k)) same
    have place : k + (i - k) = i := by omega
    simp only [BitVec.getLsbD_ushiftRight, place] at bit
    rw [bit]

end Darwin.BitField

namespace Darwin.Ipc

open Darwin.BitField

/-! ## User references -/

section Urefs

variable {bits mask : BitVec 32}

theorem ieBitsUrefs_eq (bits : BitVec 32) : ieBitsUrefs bits = bits.toNat % 2 ^ 16 := by
  rw [ieBitsUrefs, BitVec.toNat_and]
  exact Nat.and_two_pow_sub_one_eq_mod bits.toNat 16

theorem ieBitsUrefs_add_one (room : ieBitsUrefs bits < machPortUrefsMax) :
    ieBitsUrefs (bits + 1) = ieBitsUrefs bits + 1 := by
  rw [ieBitsUrefs_eq, machPortUrefsMax] at *
  rw [ieBitsUrefs_eq]
  bv_omega

theorem and_mask_add_one (room : ieBitsUrefs bits < machPortUrefsMax)
    (high : (mask >>> 16) <<< 16 = mask) : (bits + 1) &&& mask = bits &&& mask := by
  rw [ieBitsUrefs_eq, machPortUrefsMax] at room
  refine and_eq_of_high (k := 16) (BitVec.eq_of_toNat_eq ?_) high
  bv_omega

theorem and_mask_sub_one (held : 0 < ieBitsUrefs bits) (high : (mask >>> 16) <<< 16 = mask) :
    (bits - 1) &&& mask = bits &&& mask := by
  rw [ieBitsUrefs_eq] at held
  refine and_eq_of_high (k := 16) (BitVec.eq_of_toNat_eq ?_) high
  bv_omega

end Urefs

/-! ## Entries -/

namespace RightState

section Entries

variable (s : RightState) (ref : EntryRef) (e : IpcEntry) (port name : ℕ)

@[simp] theorem entry_setEntry : (s.setEntry ref e).entry ref = e := by
  cases ref <;> simp [entry, setEntry, IpcSpace.entry, IpcSpace.setEntry, IpcSpace.setSlot]

@[simp] theorem entry_modifyPort (f : IpcPort → IpcPort) :
    (s.modifyPort port f).entry ref = s.entry ref := rfl

@[simp] theorem entry_release : (s.release port).entry ref = s.entry ref := rfl

@[simp] theorem entry_hashDelete : (s.hashDelete port).entry ref = s.entry ref := rfl

@[simp] theorem entry_marequestCancel : (s.marequestCancel name).entry ref = s.entry ref := rfl

@[simp] theorem entry_releaseObject (object : IpcObject) :
    (s.releaseObject object).entry ref = s.entry ref := by
  cases object <;> rfl

end Entries

/-! ## The dead port -/

section Dead

variable {s : RightState} {policy : SpacePolicy} {port name : ℕ} {ref : EntryRef}

@[simp] theorem rightCheck_fst :
    (s.rightCheck policy port name ref).1 = !(s.ports port).active := by
  unfold rightCheck
  cases alive : (s.ports port).active
  · simp only [Bool.false_eq_true, if_false, Bool.not_false]
    split <;> rfl
  · rfl

theorem rightCheck_active (policy : SpacePolicy) (name : ℕ) (ref : EntryRef)
    (alive : (s.ports port).active = true) :
    s.rightCheck policy port name ref = (false, s) := by
  rw [rightCheck, if_pos alive]

/-- The bits left of a send right that died keep everything but the msg-accepted request. -/
theorem forgetSend_fst_and {mask : BitVec 32} (apart : ieBitsMarequest &&& mask = 0#32) :
    (s.forgetSend port name ref).1 &&& mask = (s.entry ref).bits &&& mask := by
  unfold forgetSend
  dsimp only
  split
  · split
    · exact and_not_and_of_disjoint apart
    · rfl
  · rfl

/-- The entry of a right whose port has died, compat entries apart, becomes a dead name. -/
theorem rightCheck_dead (policy : SpacePolicy) (name : ℕ) (died : (s.ports port).active = false)
    (ordinary : (s.entry ref).bits &&& ieBitsCompat = 0#32) :
    ∃ s', s.rightCheck policy port name ref = (true, s') ∧ s'.entry ref =
        ⟨deadNameBits (s.forgetSend port name ref).1 (s.entry ref).index, 0, 0⟩ := by
  have same : (s.forgetSend port name ref).1 &&& ieBitsCompat = 0#32 := by
    rw [forgetSend_fst_and (by decide), ordinary]
  refine ⟨_, ?_, entry_setEntry ((s.forgetSend port name ref).2.release port) ref _⟩
  simp [rightCheck, died, same]

end Dead

/-! ## The prediction -/

section Prediction

variable {s : RightState} {policy : SpacePolicy} {name : ℕ} {ref : EntryRef} {deadok : Bool}

private theorem isOk_moveReceive : (s.moveReceive name ref).1.isOk = true := rfl

private theorem isOk_moveSend : (s.moveSend name ref).1.isOk = true := by
  unfold moveSend
  dsimp only
  split <;> rfl

/-- The copyin of a send right: of a dead name, or of the right, which the entry may lack. -/
def copyinSend (s : RightState) (policy : SpacePolicy) (name : ℕ) (ref : EntryRef)
    (mask : BitVec 32)
    (dead live : RightState → Except RightError (IpcObject × Option ℕ) × RightState) :
    Except RightError (IpcObject × Option ℕ) × RightState :=
  if (s.entry ref).bits &&& typeDeadName ≠ 0 then dead s
  else if (s.entry ref).bits &&& typeSendRights = 0 then (.error .invalidRight, s)
  else
    match s.rightCheck policy (s.entry ref).object name ref with
    | (true, s₁) =>
      if (s.entry ref).bits &&& ieBitsCompat ≠ 0 then (.error .invalidName, s₁) else dead s₁
    | (false, s₁) =>
      if (s.entry ref).bits &&& mask = 0 then (.error .invalidRight, s₁) else live s₁

theorem copySend_eq : ∃ live, s.rightCopyin policy name ref .copySend deadok =
    s.copyinSend policy name ref typeSend (copyDead · deadok) live ∧
      ∀ s, ∃ port, (live s).1 = .ok (.port port, none) :=
  ⟨_, rfl, fun _ => ⟨_, rfl⟩⟩

theorem moveSend_eq : s.rightCopyin policy name ref .moveSend deadok =
    s.copyinSend policy name ref typeSend (moveDead · ref deadok) (moveSend · name ref) := rfl

theorem moveSendOnce_eq : s.rightCopyin policy name ref .moveSendOnce deadok =
    s.copyinSend policy name ref typeSendOnce (moveDead · ref deadok) (moveSendOnce · ref) := rfl

variable {mask : BitVec 32}
  {dead live : RightState → Except RightError (IpcObject × Option ℕ) × RightState}

theorem copyinSend_isOk (ordinary : (s.entry ref).bits &&& ieBitsCompat = 0#32)
    (dead_ok : ∀ s, (dead s).1.isOk = true) (live_ok : ∀ s, (live s).1.isOk = true) :
    (s.copyinSend policy name ref mask dead live).1.isOk =
      if (s.entry ref).bits &&& typeDeadName ≠ 0 then true
      else if (s.entry ref).bits &&& typeSendRights = 0 then false
      else if (s.ports (s.entry ref).object).active = false then
        (s.entry ref).bits &&& ieBitsCompat = 0
      else (s.entry ref).bits &&& mask ≠ 0 := by
  unfold copyinSend
  by_cases deadName : (s.entry ref).bits &&& typeDeadName = 0#32
  swap
  · simp [deadName, dead_ok]
  by_cases rights : (s.entry ref).bits &&& typeSendRights = 0#32
  · simp [deadName, rights, Except.isOk, Except.toBool]
  cases alive : (s.ports (s.entry ref).object).active with
  | false =>
    obtain ⟨s', check, -⟩ := rightCheck_dead policy name alive ordinary
    simp [deadName, rights, check, ordinary, dead_ok]
  | true =>
    rw [rightCheck_active policy name ref alive]
    by_cases held : (s.entry ref).bits &&& mask = 0#32
    · simp [deadName, rights, held, Except.isOk, Except.toBool]
    · simp [deadName, rights, held, live_ok]

/-- `ipc_right_copyin_check` predicts whether `ipc_right_copyin` succeeds when it may produce
`IO_DEAD`. -/
theorem rightCopyin_isOk (policy : SpacePolicy) (name : ℕ) (msgtName : MsgType)
    (ordinary : (s.entry ref).bits &&& ieBitsCompat = 0#32) :
    (s.rightCopyin policy name ref msgtName true).1.isOk = s.rightCopyinCheck ref msgtName := by
  cases msgtName with
  | makeSend =>
    by_cases held : (s.entry ref).bits &&& typeReceive = 0#32
    · simp [rightCopyin, rightCopyinCheck, held, Except.isOk, Except.toBool]
    · simp [rightCopyin, rightCopyinCheck, held, Except.isOk, Except.toBool]
  | makeSendOnce =>
    by_cases held : (s.entry ref).bits &&& typeReceive = 0#32
    · simp [rightCopyin, rightCopyinCheck, held, Except.isOk, Except.toBool]
    · simp [rightCopyin, rightCopyinCheck, held, Except.isOk, Except.toBool]
  | moveReceive =>
    by_cases held : (s.entry ref).bits &&& typeReceive = 0#32
    · simp [rightCopyin, rightCopyinCheck, held, Except.isOk, Except.toBool]
    · simp [rightCopyin, rightCopyinCheck, held, isOk_moveReceive]
  | copySend =>
    obtain ⟨live, same, port⟩ :=
      @copySend_eq s policy name ref true
    rw [same]
    exact copyinSend_isOk ordinary (fun _ => rfl) fun s => by
      obtain ⟨port, result⟩ := port s
      rw [result]
      rfl
  | moveSend =>
    rw [moveSend_eq]
    exact copyinSend_isOk ordinary (fun _ => rfl) fun _ => isOk_moveSend
  | moveSendOnce =>
    rw [moveSendOnce_eq]
    exact copyinSend_isOk ordinary (fun _ => rfl) fun _ => rfl

end Prediction

/-! ## Undoing the copyin of a dead right -/

end RightState

/-- The entry is a dead name under the same name, with no fewer user references. -/
structure IpcEntry.DeadNameOf (e' e : IpcEntry) : Prop where
  type : ieBitsType e'.bits = typeDeadName
  gen : ieBitsGen e'.bits = ieBitsGen e.bits
  collision : e'.bits &&& ieBitsCollision = e.bits &&& ieBitsCollision
  urefs : ieBitsUrefs e.bits ≤ ieBitsUrefs e'.bits

/-- What the kernel asserts of an entry in use: a dead name is nothing else and is referred to, and
so is a send or send-once right whose port has died; one with a dead-name request leaves room for
the reference that its notification stands for. -/
structure IpcEntry.Asserted (e : IpcEntry) (port : IpcPort) : Prop where
  deadName : e.bits &&& typeDeadName ≠ 0#32 →
    ieBitsType e.bits = typeDeadName ∧ 0 < ieBitsUrefs e.bits
  died : e.bits &&& typeSendRights ≠ 0#32 → port.active = false →
    0 < ieBitsUrefs e.bits ∧ (e.index ≠ 0 → ieBitsUrefs e.bits < machPortUrefsMax)

namespace RightState

section Undo

variable {s : RightState} {policy : SpacePolicy} {name : ℕ} {ref : EntryRef} {bits : BitVec 32}

private theorem type_deadName (bits : BitVec 32) :
    ieBitsType ((bits &&& ~~~ieBitsTypeMask) ||| typeDeadName) = typeDeadName := by
  rw [ieBitsType, and_or_of_subset (by decide), and_and_mask,
    show ~~~ieBitsTypeMask &&& ieBitsTypeMask = 0#32 by decide, BitVec.and_zero, BitVec.zero_or]

variable {mask : BitVec 32} {msgtName : MsgType} {soright : Option ℕ} {s' : RightState}

private theorem and_deadName (apart : ieBitsTypeMask &&& mask = 0#32)
    (apart' : typeDeadName &&& mask = 0#32) :
    ((bits &&& ~~~ieBitsTypeMask) ||| typeDeadName) &&& mask = bits &&& mask := by
  rw [and_or_of_disjoint apart', and_not_and_of_disjoint apart]

/-- An entry that becomes a dead name keeps its name and gains a reference for its request. -/
theorem deadNameBits_spec (bits : BitVec 32) (request : ℕ)
    (room : request ≠ 0 → ieBitsUrefs bits < machPortUrefsMax) :
    ieBitsType (deadNameBits bits request) = typeDeadName ∧
      ieBitsGen (deadNameBits bits request) = ieBitsGen bits ∧
      deadNameBits bits request &&& ieBitsCollision = bits &&& ieBitsCollision ∧
      ieBitsUrefs (deadNameBits bits request) =
        ieBitsUrefs bits + if request ≠ 0 then 1 else 0 := by
  have urefs : ieBitsUrefs ((bits &&& ~~~ieBitsTypeMask) ||| typeDeadName) = ieBitsUrefs bits := by
    rw [ieBitsUrefs, and_deadName (by decide) (by decide)]
    rfl
  unfold deadNameBits
  by_cases requested : request = 0
  · simp only [requested, ne_eq, not_true_eq_false, if_false, add_zero]
    exact ⟨type_deadName bits, and_deadName (by decide) (by decide),
      and_deadName (by decide) (by decide), urefs⟩
  simp only [ne_eq, requested, not_false_eq_true, if_true]
  have room : ieBitsUrefs ((bits &&& ~~~ieBitsTypeMask) ||| typeDeadName) < machPortUrefsMax := by
    rw [urefs]
    exact room requested
  refine ⟨?_, ?_, ?_, ?_⟩
  · rw [ieBitsType, and_mask_add_one room (by decide)]
    exact type_deadName bits
  · rw [ieBitsGen, and_mask_add_one room (by decide)]
    exact and_deadName (by decide) (by decide)
  · rw [and_mask_add_one room (by decide)]
    exact and_deadName (by decide) (by decide)
  · rw [ieBitsUrefs_add_one room, urefs]

private theorem and_restored (apart : ieBitsRightMask &&& mask = 0#32) :
    ((bits &&& ~~~ieBitsRightMask) ||| typeDeadName ||| 1) &&& mask = bits &&& mask := by
  have typeApart : typeDeadName &&& mask = 0#32 :=
    and_eq_zero_of_subset (show _ &&& ieBitsRightMask = _ by decide) apart
  have oneApart : (1 : BitVec 32) &&& mask = 0#32 :=
    and_eq_zero_of_subset (show _ &&& ieBitsRightMask = _ by decide) apart
  rw [and_or_of_disjoint oneApart, and_or_of_disjoint typeApart, and_not_and_of_disjoint apart]

private theorem type_restored (bits : BitVec 32) :
    ieBitsType ((bits &&& ~~~ieBitsRightMask) ||| typeDeadName ||| 1) = typeDeadName := by
  rw [ieBitsType, and_or_of_disjoint (by decide), and_or_of_subset (by decide), and_and_mask,
    show ~~~ieBitsRightMask &&& ieBitsTypeMask = 0#32 by decide, BitVec.and_zero, BitVec.zero_or]

private theorem urefs_restored (bits : BitVec 32) :
    ieBitsUrefs ((bits &&& ~~~ieBitsRightMask) ||| typeDeadName ||| 1) = 1 := by
  rw [ieBitsUrefs, and_or_of_subset (by decide), and_or_of_disjoint (by decide), and_and_mask,
    show ~~~ieBitsRightMask &&& ieBitsUrefsMask = 0#32 by decide, BitVec.and_zero, BitVec.zero_or]
  rfl

/-- A copyin of a dead name that takes a reference, and its undo, leave the references as they
were. -/
theorem undo_moveDead (deadName : ieBitsType (s.entry ref).bits = typeDeadName)
    (held : 0 < ieBitsUrefs (s.entry ref).bits) (moves : msgtName ≠ .copySend) :
    IpcEntry.DeadNameOf
      (((s.moveDead ref true).2.rightCopyinUndo policy name ref msgtName .dead none).entry ref)
      (s.entry ref) := by
  by_cases last : ieBitsUrefs (s.entry ref).bits = 1
  · have moved : (s.moveDead ref true).2 =
        s.setEntry ref { s.entry ref with bits := (s.entry ref).bits &&& ~~~typeDeadName } := by
      simp [moveDead, last]
    have none' : ieBitsType ((s.entry ref).bits &&& ~~~typeDeadName) = 0 := by
      rw [ieBitsType, BitVec.and_assoc, BitVec.and_comm (~~~typeDeadName), ← BitVec.and_assoc,
        show (s.entry ref).bits &&& ieBitsTypeMask = typeDeadName from deadName]
      decide
    rw [moved]
    simp only [rightCopyinUndo, entry_setEntry, Option.isSome_none, Bool.false_eq_true, if_false]
    rw [if_pos none', entry_releaseObject, entry_setEntry]
    refine ⟨type_restored _, ?_, ?_, ?_⟩
    · rw [ieBitsGen, and_restored (by decide), and_not_and_of_disjoint (by decide)]
      rfl
    · rw [and_restored (by decide), and_not_and_of_disjoint (by decide)]
    · rw [last, urefs_restored]
  · have moved : (s.moveDead ref true).2 =
        s.setEntry ref { s.entry ref with bits := (s.entry ref).bits - 1 } := by
      simp [moveDead, last]
    have still : ieBitsType ((s.entry ref).bits - 1) = typeDeadName := by
      rw [ieBitsType, and_mask_sub_one held (by decide)]
      exact deadName
    have back : (s.entry ref).bits - 1 + 1 = (s.entry ref).bits := BitVec.sub_add_cancel _ _
    rw [moved]
    simp only [rightCopyinUndo, entry_setEntry, Option.isSome_none, Bool.false_eq_true, if_false]
    rw [if_neg (by rw [still]; decide), if_pos still, if_pos moves, entry_releaseObject,
      entry_setEntry, back]
    exact ⟨deadName, rfl, rfl, le_refl _⟩

/-- A copyin that copies a dead name changes nothing, nor does its undo. -/
theorem undo_copyDead (deadName : ieBitsType (s.entry ref).bits = typeDeadName) :
    IpcEntry.DeadNameOf
      (((s.copyDead true).2.rightCopyinUndo policy name ref .copySend .dead none).entry ref)
      (s.entry ref) := by
  have undone : ((s.copyDead true).2.rightCopyinUndo policy name ref .copySend .dead none).entry ref =
      s.entry ref := by
    simp [rightCopyinUndo, copyDead, deadName, typeDeadName]
  rw [undone]
  exact ⟨deadName, rfl, rfl, le_refl _⟩

private theorem deadName_trans {e e' e'' : IpcEntry} (later : e''.DeadNameOf e')
    (gen : ieBitsGen e'.bits = ieBitsGen e.bits)
    (collision : e'.bits &&& ieBitsCollision = e.bits &&& ieBitsCollision)
    (urefs : ieBitsUrefs e.bits ≤ ieBitsUrefs e'.bits) : e''.DeadNameOf e :=
  ⟨later.type, later.gen.trans gen, later.collision.trans collision, urefs.trans later.urefs⟩

/-- A right whose port has died becomes a dead name with no fewer references, of which there is at
least one. -/
theorem rightCheck_deadNameOf (policy : SpacePolicy) (name : ℕ)
    (died : (s.ports (s.entry ref).object).active = false)
    (ordinary : (s.entry ref).bits &&& ieBitsCompat = 0#32)
    (rights : (s.entry ref).bits &&& typeSendRights ≠ 0#32)
    (asserted : (s.entry ref).Asserted (s.ports (s.entry ref).object)) :
    ∃ s', s.rightCheck policy (s.entry ref).object name ref = (true, s') ∧
      (s'.entry ref).DeadNameOf (s.entry ref) ∧ 0 < ieBitsUrefs (s'.entry ref).bits := by
  obtain ⟨s', check, entry⟩ := rightCheck_dead policy name died ordinary
  obtain ⟨held, room⟩ := asserted.died rights died
  have sameUrefs : ieBitsUrefs (s.forgetSend (s.entry ref).object name ref).1 =
      ieBitsUrefs (s.entry ref).bits := by
    rw [ieBitsUrefs, forgetSend_fst_and (by decide)]
    rfl
  obtain ⟨type, gen, collision, urefs⟩ :=
    deadNameBits_spec (s.forgetSend (s.entry ref).object name ref).1 (s.entry ref).index
      (by rwa [sameUrefs])
  rw [sameUrefs] at urefs
  refine ⟨s', check, ?_, ?_⟩ <;> rw [entry]
  · refine ⟨type, ?_, ?_, ?_⟩
    · rw [gen, ieBitsGen, forgetSend_fst_and (by decide)]
      rfl
    · rw [collision, forgetSend_fst_and (by decide)]
    · dsimp only
      omega
  · dsimp only
    omega

private theorem moveReceive_ne_dead :
    (s.moveReceive name ref).1 ≠ .ok (.dead, soright) := by
  simp [moveReceive]

private theorem moveSend_ne_dead :
    (s.moveSend name ref).1 ≠ .ok (.dead, soright) := by
  unfold moveSend
  dsimp only
  split <;> simp

private theorem moveSendOnce_ne_dead :
    (s.moveSendOnce ref).1 ≠ .ok (.dead, soright) := by
  simp [moveSendOnce]

/-- A dead name, either at once or because the port of the right had died. -/
private def Died (s : RightState) (ref : EntryRef) (s₁ : RightState) : Prop :=
  (s₁.entry ref).DeadNameOf (s.entry ref) ∧ 0 < ieBitsUrefs (s₁.entry ref).bits

variable (ordinary : (s.entry ref).bits &&& ieBitsCompat = 0#32)

include ordinary

variable (asserted : (s.entry ref).Asserted (s.ports (s.entry ref).object))

include asserted

theorem copyinSend_dead {mask : BitVec 32}
    {dead live : RightState → Except RightError (IpcObject × Option ℕ) × RightState}
    (alive_ne : ∀ s, (live s).1 ≠ .ok (.dead, soright))
    (copied : s.copyinSend policy name ref mask dead live = (.ok (.dead, soright), s')) :
    ∃ s₁, Died s ref s₁ ∧ dead s₁ = (.ok (.dead, soright), s') := by
  unfold copyinSend at copied
  split at copied
  · rename_i deadName
    exact ⟨s, ⟨⟨(asserted.deadName deadName).1, rfl, rfl, le_refl _⟩,
      (asserted.deadName deadName).2⟩, copied⟩
  split at copied
  · simp at copied
  rename_i rights
  cases alive : (s.ports (s.entry ref).object).active with
  | false =>
    obtain ⟨s₁, check, died⟩ := rightCheck_deadNameOf policy name alive ordinary rights asserted
    rw [check] at copied
    simp only [ordinary, ne_eq, BitVec.ofNat_eq_ofNat, not_true_eq_false, if_false] at copied
    exact ⟨s₁, died, copied⟩
  | true =>
    rw [rightCheck_active policy name ref alive] at copied
    dsimp only at copied
    split at copied
    · simp at copied
    · exact absurd (congrArg Prod.fst copied) (alive_ne s)

variable (copied : s.rightCopyin policy name ref msgtName true = (.ok (.dead, soright), s'))

include copied

/-- A copyin produces `IO_DEAD` only from a dead name. -/
theorem rightCopyin_dead_cases :
    ∃ s₁, Died s ref s₁ ∧ (msgtName = .copySend ∧ s₁.copyDead true = (.ok (.dead, soright), s') ∨
        msgtName ≠ .copySend ∧ s₁.moveDead ref true = (.ok (.dead, soright), s')) := by
  cases msgtName with
  | makeSend =>
    dsimp only [rightCopyin] at copied
    split at copied <;> simp at copied
  | makeSendOnce =>
    dsimp only [rightCopyin] at copied
    split at copied <;> simp at copied
  | moveReceive =>
    dsimp only [rightCopyin] at copied
    split at copied
    · simp at copied
    · exact absurd (congrArg Prod.fst copied) moveReceive_ne_dead
  | copySend =>
    obtain ⟨live, same, port⟩ := @copySend_eq s policy name ref true
    obtain ⟨s₁, died, last⟩ := copyinSend_dead ordinary asserted (fun s => by
      obtain ⟨port, result⟩ := port s
      simp [result]) (same.symm.trans copied)
    exact ⟨s₁, died, .inl ⟨rfl, last⟩⟩
  | moveSend =>
    obtain ⟨s₁, died, last⟩ := copyinSend_dead ordinary asserted (fun _ => moveSend_ne_dead) copied
    exact ⟨s₁, died, .inr ⟨by decide, last⟩⟩
  | moveSendOnce =>
    obtain ⟨s₁, died, last⟩ :=
      copyinSend_dead ordinary asserted (fun _ => moveSendOnce_ne_dead) copied
    exact ⟨s₁, died, .inr ⟨by decide, last⟩⟩

/-- A copyin that produces `IO_DEAD` owes no notification, and its undo leaves a dead name. -/
theorem rightCopyin_dead_undo :
    soright = none ∧ IpcEntry.DeadNameOf
        ((s'.rightCopyinUndo policy name ref msgtName .dead soright).entry ref) (s.entry ref) := by
  obtain ⟨s₁, ⟨dead, held⟩, ⟨rfl, last⟩ | ⟨moves, last⟩⟩ :=
    rightCopyin_dead_cases ordinary asserted copied
  · obtain ⟨result, rfl⟩ := Prod.mk.inj last
    obtain ⟨-, rfl⟩ := Prod.mk.inj (Except.ok.inj result)
    exact ⟨rfl, deadName_trans (undo_copyDead dead.type) dead.gen dead.collision dead.urefs⟩
  have result : s₁.moveDead ref true = (.ok (.dead, none), (s₁.moveDead ref true).2) := rfl
  obtain ⟨object, rfl⟩ := Prod.mk.inj (result.symm.trans last)
  obtain ⟨-, rfl⟩ := Prod.mk.inj (Except.ok.inj object)
  exact ⟨rfl, deadName_trans (undo_moveDead dead.type held moves) dead.gen dead.collision
    dead.urefs⟩

omit copied

omit asserted

omit ordinary

/-- **The prediction of a copyin.**  On an entry that is not a compat entry and is as the kernel
asserts, `ipc_right_copyin_check` answers as `ipc_right_copyin` would, and a copyin that produces
`IO_DEAD` owes no notification and is undone to a dead name with the references it had. -/
theorem check_predicts (s : RightState) (policy : SpacePolicy) (name : ℕ) (ref : EntryRef)
    (msgtName : MsgType) (ordinary : (s.entry ref).bits &&& ieBitsCompat = 0#32)
    (asserted : (s.entry ref).Asserted (s.ports (s.entry ref).object)) :
    (s.rightCopyinCheck ref msgtName = true ↔ ∃ object soright s',
        s.rightCopyin policy name ref msgtName true = (.ok (object, soright), s')) ∧
    ∀ soright s', s.rightCopyin policy name ref msgtName true = (.ok (.dead, soright), s') →
      soright = none ∧ IpcEntry.DeadNameOf
          ((s'.rightCopyinUndo policy name ref msgtName .dead soright).entry ref)
          (s.entry ref) := by
  refine ⟨?_, fun soright s' copied => rightCopyin_dead_undo ordinary asserted copied⟩
  rw [← rightCopyin_isOk policy name msgtName ordinary]
  rcases outcome : s.rightCopyin policy name ref msgtName true with ⟨_ | ⟨object, soright⟩, s'⟩
  · simp [Except.isOk, Except.toBool]
  · simp [Except.isOk, Except.toBool]

end Undo

/-- A space whose slot 1 holds three references to a send right with a dead-name request; its port
has died. -/
def dyingSend : RightState where
  isActive := true
  space :=
    { table := fun i => if i = 1 then ⟨0x05210003#32, 7, 2⟩ else ⟨0#32, 0, 0⟩
      tableSize := 4
      tableNext := 1
      tree := ⟨∅, fun _ => ⟨0#32, 0, 0⟩⟩
      treeTotal := 0
      treeSmall := 0 }
  ports _ := ⟨false, 1, 1, 0, 0, 0, 0#32, 0, 0, fun _ => none⟩
  hash _ := some 0x105
  marequests _ := true

theorem check_predicts_dyingSend :
    (dyingSend.rightCopyinCheck (.slot 1) .moveSend = true ↔ ∃ object soright s',
        dyingSend.rightCopyin ⟨fun _ => 4, fun _ => 0⟩ 0x105 (.slot 1) .moveSend true =
          (.ok (object, soright), s')) ∧
    ∀ soright s', dyingSend.rightCopyin ⟨fun _ => 4, fun _ => 0⟩ 0x105 (.slot 1) .moveSend true =
          (.ok (.dead, soright), s') →
        soright = none ∧ IpcEntry.DeadNameOf
            ((s'.rightCopyinUndo ⟨fun _ => 4, fun _ => 0⟩ 0x105 (.slot 1) .moveSend .dead
              soright).entry (.slot 1))
            (dyingSend.entry (.slot 1)) :=
  check_predicts dyingSend ⟨fun _ => 4, fun _ => 0⟩ 0x105 (.slot 1) .moveSend (by decide)
    ⟨by decide, by decide⟩

end RightState

end Darwin.Ipc
