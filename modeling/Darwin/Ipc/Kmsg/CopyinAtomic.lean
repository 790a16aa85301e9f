import Darwin.Ipc.Kmsg.CopyinHeader
import Darwin.Ipc.Right.Check

/-!
# Atomicity of the header copyin

When every port that the space names is alive, a header copyin that fails leaves the header, the
space and its ports as they were, and the reply right that `ipc_right_copyin_check` allowed is never
refused afterwards, although the copyin of the destination stands between the two.

## Main results

* `copyinHeader_atomic`: failures change nothing, and the guarded copyin succeeds
-/

namespace Darwin.Ipc

open Darwin.BitField Option IpcSpace

/-- The types of rights to a port. -/
def typePortRights : BitVec 32 := typeSendRights ||| typeReceive

namespace RightState

/-- An entry is not a compat entry, its right, if it is one to a port, is to a live port, and a send
or send-once right has references, as the kernel asserts. -/
structure LiveAt (s : RightState) (ref : EntryRef) : Prop where
  ordinary : (s.entry ref).bits &&& ieBitsCompat = 0#32
  active : (s.entry ref).bits &&& typePortRights ≠ 0#32 →
    (s.ports (s.entry ref).object).active = true
  urefs : (s.entry ref).bits &&& typeSendRights ≠ 0#32 → 0 < ieBitsUrefs (s.entry ref).bits

/-- All named ports are active, and no entry is a compat entry. -/
def AllActive (s : RightState) : Prop := ∀ ref, s.LiveAt ref

section Frame

/-- What an operation on one entry leaves alone: the other entries, and which ports are alive. -/
structure Frame (ref : EntryRef) (s s' : RightState) : Prop where
  entry : ∀ other, other ≠ ref → s'.entry other = s.entry other
  active : ∀ port, (s'.ports port).active = (s.ports port).active

variable {s s' s'' : RightState} {ref other : EntryRef} {name port : ℕ} {e : IpcEntry}

theorem Frame.refl (s : RightState) : Frame ref s s := ⟨fun _ _ => rfl, fun _ => by rfl⟩

theorem entry_setEntry_of_ne (apart : other ≠ ref) :
    (s.setEntry ref e).entry other = s.entry other := by
  cases ref <;> cases other <;>
    simp_all [RightState.entry, setEntry, IpcSpace.entry, IpcSpace.setEntry, IpcSpace.setSlot,
      Function.update]

variable (frame : Frame ref s s')

include frame

theorem Frame.setEntry (e : IpcEntry) : Frame ref s (s'.setEntry ref e) :=
  ⟨fun other apart => (entry_setEntry_of_ne apart).trans (frame.entry other apart), frame.active⟩

theorem Frame.modifyPort (port : ℕ) {f : IpcPort → IpcPort} (same : ∀ p, (f p).active = p.active) :
    Frame ref s (s'.modifyPort port f) := by
  refine ⟨frame.entry, fun other => ?_⟩
  rw [← frame.active other]
  by_cases this : other = port
  · subst this
    simp [RightState.modifyPort, same]
  · simp [RightState.modifyPort, this]

theorem Frame.reference (port : ℕ) : Frame ref s (s'.reference port) :=
  frame.modifyPort port fun _ => by rfl

theorem Frame.hashInsert (object name : ℕ) :
    Frame ref s (s'.hashInsert object name) := ⟨frame.entry, frame.active⟩

theorem Frame.hashDelete (object : ℕ) :
    Frame ref s (s'.hashDelete object) := ⟨frame.entry, frame.active⟩

theorem Frame.marequestCancel (name : ℕ) :
    Frame ref s (s'.marequestCancel name) := ⟨frame.entry, frame.active⟩

theorem Frame.dncancelMacro (port : ℕ) : Frame ref s (s'.dncancelMacro port ref).2 := by
  unfold RightState.dncancelMacro
  dsimp only
  split
  · exact frame
  · split <;> exact (frame.modifyPort _ fun _ => by rfl).setEntry _

omit frame

theorem frame_moveReceive (s : RightState) (name : ℕ) : Frame ref s (s.moveReceive name ref).2 := by
  unfold moveReceive
  dsimp only
  refine Frame.modifyPort (Frame.setEntry ?_ _) _ fun _ => by rfl
  split
  · exact ((Frame.refl s).hashInsert _ _).reference _
  refine Frame.setEntry ?_ _
  split
  · exact ((Frame.refl s).dncancelMacro _).marequestCancel _
  · exact (Frame.refl s).dncancelMacro _

theorem frame_moveSend (s : RightState) (name : ℕ) : Frame ref s (s.moveSend name ref).2 := by
  unfold moveSend
  dsimp only
  split
  · refine Frame.setEntry ?_ _
    split
    · exact (Frame.refl s).reference _
    refine Frame.setEntry ?_ _
    split
    · exact (((Frame.refl s).dncancelMacro _).hashDelete _).marequestCancel _
    · exact ((Frame.refl s).dncancelMacro _).hashDelete _
  · exact ((Frame.refl s).modifyPort _ fun _ => by rfl).setEntry _

theorem frame_moveSendOnce (s : RightState) : Frame ref s (s.moveSendOnce ref).2 :=
  ((Frame.refl s).dncancelMacro _).setEntry _

end Frame

/-! ## Copyin from live ports -/

section Live

variable {s s' : RightState} {policy : SpacePolicy} {name : ℕ} {ref : EntryRef} {deadok : Bool}

variable (live : s.LiveAt ref)

include live

theorem LiveAt.active_of_send
    (rights : (s.entry ref).bits &&& typeSendRights ≠ 0#32) :
    (s.ports (s.entry ref).object).active = true :=
  live.active (and_ne_zero (by decide) rights)

theorem LiveAt.active_of_receive
    (rights : (s.entry ref).bits &&& typeReceive ≠ 0#32) :
    (s.ports (s.entry ref).object).active = true :=
  live.active (and_ne_zero (by decide) rights)

variable {msgtName : MsgType} {reason : RightError}

/-- What a copyin does when the port of the entry is alive. -/
private theorem rightCopyin_cases
    {result : Except RightError (IpcObject × Option ℕ) × RightState}
    (copied : s.rightCopyin policy name ref msgtName deadok = result) :
    result = (.error .invalidRight, s) ∨
    (s.entry ref).bits &&& typeDeadName ≠ 0#32 ∧
      (result = s.copyDead deadok ∧ msgtName = .copySend ∨
        result = s.moveDead ref deadok ∧ (msgtName = .moveSend ∨ msgtName = .moveSendOnce)) ∨
    (s.ports (s.entry ref).object).active = true ∧
      (result = s.moveReceive name ref ∧ msgtName = .moveReceive ∨
        result = s.moveSend name ref ∧ msgtName = .moveSend ∧
          (s.entry ref).bits &&& typeSendRights ≠ 0#32 ∨
        result = s.moveSendOnce ref ∧ msgtName = .moveSendOnce ∨
        ∃ f : IpcPort → IpcPort, (∀ p, (f p).active = p.active) ∧
          msgtName ≠ .moveSend ∧ msgtName ≠ .moveSendOnce ∧ msgtName ≠ .moveReceive ∧
          result = (.ok (.port (s.entry ref).object, none),
            s.modifyPort (s.entry ref).object f)) := by
  subst copied
  unfold rightCopyin
  cases msgtName with
  | makeSend =>
    dsimp only
    split
    · exact .inl rfl
    · rename_i held
      exact .inr (.inr ⟨live.active_of_receive held, .inr (.inr (.inr
        ⟨_, fun _ => by rfl, by decide, by decide, by decide, rfl⟩))⟩)
  | makeSendOnce =>
    dsimp only
    split
    · exact .inl rfl
    · rename_i held
      exact .inr (.inr ⟨live.active_of_receive held, .inr (.inr (.inr
        ⟨_, fun _ => by rfl, by decide, by decide, by decide, rfl⟩))⟩)
  | moveReceive =>
    dsimp only
    split
    · exact .inl rfl
    · rename_i held
      exact .inr (.inr ⟨live.active_of_receive held, .inl ⟨rfl, rfl⟩⟩)
  | copySend =>
    dsimp only
    split
    · rename_i deadName
      exact .inr (.inl ⟨deadName, .inl ⟨rfl, rfl⟩⟩)
    split
    · exact .inl rfl
    rename_i rights
    rw [rightCheck_active policy name ref (live.active_of_send rights)]
    dsimp only
    split
    · exact .inl rfl
    · exact .inr (.inr ⟨live.active_of_send rights, .inr (.inr (.inr
        ⟨_, fun _ => by rfl, by decide, by decide, by decide, rfl⟩))⟩)
  | moveSend =>
    dsimp only
    split
    · rename_i deadName
      exact .inr (.inl ⟨deadName, .inr ⟨rfl, .inl rfl⟩⟩)
    split
    · exact .inl rfl
    rename_i rights
    rw [rightCheck_active policy name ref (live.active_of_send rights)]
    dsimp only
    split
    · exact .inl rfl
    · exact .inr (.inr ⟨live.active_of_send rights, .inr (.inl ⟨rfl, rfl, rights⟩)⟩)
  | moveSendOnce =>
    dsimp only
    split
    · rename_i deadName
      exact .inr (.inl ⟨deadName, .inr ⟨rfl, .inr rfl⟩⟩)
    split
    · exact .inl rfl
    rename_i rights
    rw [rightCheck_active policy name ref (live.active_of_send rights)]
    dsimp only
    split
    · exact .inl rfl
    · exact .inr (.inr ⟨live.active_of_send rights, .inr (.inr (.inl ⟨rfl, rfl⟩))⟩)

/-- A copyin that is refused changes nothing. -/
theorem rightCopyin_error
    (copied : s.rightCopyin policy name ref msgtName deadok = (.error reason, s')) : s' = s := by
  rcases rightCopyin_cases live copied with refused | ⟨-, ⟨dead, -⟩ | ⟨dead, -⟩⟩ |
    ⟨-, ⟨moved, -⟩ | ⟨moved, -⟩ | ⟨moved, -⟩ | ⟨f, -, -, -, -, moved⟩⟩
  · exact (Prod.mk.inj refused).2
  · unfold copyDead at dead
    split at dead
    · exact (Prod.mk.inj dead).2
    · cases (Prod.mk.inj dead).1
  · unfold moveDead at dead
    split at dead
    · exact (Prod.mk.inj dead).2
    · cases (Prod.mk.inj dead).1
  · cases (Prod.mk.inj moved).1
  · unfold moveSend at moved
    dsimp only at moved
    split at moved <;> cases (Prod.mk.inj moved).1
  · cases (Prod.mk.inj moved).1
  · cases (Prod.mk.inj moved).1

omit live

/-- A copyin leaves the other entries alone and no port dies of it. -/
theorem rightCopyin_frame (policy : SpacePolicy) (name : ℕ) (deadok : Bool) (live : s.LiveAt ref)
    (msgtName : MsgType) :
    Frame ref s (s.rightCopyin policy name ref msgtName deadok).2 := by
  have copied : s.rightCopyin policy name ref msgtName deadok = _ := rfl
  rcases rightCopyin_cases live copied with refused | ⟨-, ⟨dead, -⟩ | ⟨dead, -⟩⟩ |
    ⟨-, ⟨moved, -⟩ | ⟨moved, -⟩ | ⟨moved, -⟩ | ⟨f, same, -, -, -, moved⟩⟩
  · rw [refused]
    exact Frame.refl s
  · rw [dead, copyDead]
    split <;> exact Frame.refl s
  · rw [dead, moveDead]
    split
    · exact Frame.refl s
    · exact (Frame.refl s).setEntry _
  · rw [moved]
    exact frame_moveReceive s name
  · rw [moved]
    exact frame_moveSend s name
  · rw [moved]
    exact frame_moveSendOnce s
  · rw [moved]
    exact (Frame.refl s).modifyPort _ same

/-- Moving a send right out of an entry touches only its references and its send bit. -/
theorem moveSend_and (name : ℕ) (mask : BitVec 32) (urefs : 0 < ieBitsUrefs (s.entry ref).bits)
    (apart : (ieBitsUrefsMask ||| typeSend) &&& mask = 0#32)
    (high : (mask >>> 16) <<< 16 = mask) :
    ((s.moveSend name ref).2.entry ref).bits &&& mask = (s.entry ref).bits &&& mask := by
  unfold moveSend
  dsimp only
  split
  · rw [entry_setEntry]
    exact and_not_and_of_disjoint apart
  · rw [entry_setEntry]
    exact and_mask_sub_one urefs high

/-- A copyin that must produce a live port does, and unless the right itself moves its entry stays
as it was. -/
theorem rightCopyin_live (live : s.LiveAt ref) {object : IpcObject} {soright : Option ℕ}
    (copied : s.rightCopyin policy name ref msgtName false = (.ok (object, soright), s')) :
    object = .port (s.entry ref).object ∧ (s.ports (s.entry ref).object).active = true ∧
      (msgtName = .moveReceive ∨ msgtName = .moveSendOnce ∨
        msgtName = .moveSend ∧ s' = (s.moveSend name ref).2 ∧ 0 < ieBitsUrefs (s.entry ref).bits ∨
        s'.entry ref = s.entry ref) := by
  rcases rightCopyin_cases live copied with refused | ⟨-, ⟨dead, -⟩ | ⟨dead, -⟩⟩ |
    ⟨active, ⟨moved, type⟩ | ⟨moved, type, rights⟩ | ⟨moved, type⟩ | ⟨f, -, -, -, -, moved⟩⟩
  · cases (Prod.mk.inj refused).1
  · cases (Prod.mk.inj dead).1
  · cases (Prod.mk.inj dead).1
  · obtain ⟨result, -⟩ := Prod.mk.inj moved
    exact ⟨(Prod.mk.inj (Except.ok.inj result)).1, active, .inl type⟩
  · refine ⟨?_, active, .inr (.inr (.inl ⟨type, congrArg Prod.snd moved, live.urefs rights⟩))⟩
    unfold moveSend at moved
    dsimp only at moved
    split at moved <;> exact (Prod.mk.inj (Except.ok.inj (Prod.mk.inj moved).1)).1
  · obtain ⟨result, -⟩ := Prod.mk.inj moved
    exact ⟨(Prod.mk.inj (Except.ok.inj result)).1, active, .inr (.inl type)⟩
  · obtain ⟨result, rfl⟩ := Prod.mk.inj moved
    exact ⟨(Prod.mk.inj (Except.ok.inj result)).1, active, .inr (.inr (.inr rfl))⟩

/-- The copyin of two send rights that is refused changes nothing. -/
theorem rightCopyinTwo_error (live : s.LiveAt ref)
    (copied : s.rightCopyinTwo policy name ref = (.error reason, s')) : s' = s := by
  unfold rightCopyinTwo at copied
  dsimp only at copied
  split at copied
  · exact (Prod.mk.inj copied).2.symm
  rename_i send
  split at copied
  · exact (Prod.mk.inj copied).2.symm
  have rights : (s.entry ref).bits &&& typeSendRights ≠ 0#32 := and_ne_zero (by decide) send
  rw [rightCheck_active policy name ref (live.active_of_send rights)] at copied
  dsimp only at copied
  split at copied <;> cases (Prod.mk.inj copied).1

/-- An operation on one entry leaves the others live. -/
theorem LiveAt.of_frame {other : EntryRef} (live : s.LiveAt other) (frame : Frame ref s s')
    (apart : other ≠ ref) : s'.LiveAt other := by
  have same := frame.entry other apart
  constructor
  · rw [same]
    exact live.ordinary
  · rw [same, frame.active]
    exact live.active
  · rw [same]
    exact live.urefs

end Live

/-! ## The three cases -/

section Ports

variable {s : RightState} {policy : SpacePolicy} {destName replyName name : ℕ} {ref : EntryRef}
  {destType : MsgType} {replyType : Option MsgType}

/-- A failure has changed nothing and notified nobody, and the guarded copyin was not refused. -/
def Atomic (s : RightState) (outcome : PortsOutcome) : Prop :=
  (∀ result, outcome.ports = .error result →
    outcome.state = s ∧ outcome.notifications = []) ∧ outcome.guarded ≠ some false

theorem atomic_refuse (s : RightState) (result : HeaderReturn) : Atomic s (s.refuse result) :=
  ⟨fun _ _ => ⟨rfl, rfl⟩, by simp [refuse]⟩

theorem atomic_ok {ports : CopiedPorts} {state : RightState} {notifications : List Notification}
    {guarded : Option Bool} (allowed : guarded ≠ some false) :
    Atomic s ⟨.ok ports, state, notifications, guarded⟩ :=
  ⟨fun _ error => (by cases error), allowed⟩

/-- The prediction depends on the entry and on whether its port is alive. -/
theorem rightCopyinCheck_congr {s' : RightState} (entry : s'.entry ref = s.entry ref)
    (active : (s'.ports (s.entry ref).object).active = (s.ports (s.entry ref).object).active)
    (msgtName : MsgType) : s'.rightCopyinCheck ref msgtName = s.rightCopyinCheck ref msgtName := by
  unfold rightCopyinCheck
  dsimp only
  rw [entry, active]

theorem atomic_copyinMade (live : s.LiveAt ref) {replyType : MsgType}
    (allowed : s.rightCopyinCheck ref replyType = true)
    (destMoves : destType ≠ .moveReceive ∧ destType ≠ .moveSendOnce)
    (made : destType = .makeSend ∨ destType = .makeSendOnce ∨ replyType = .makeSend ∨
      replyType = .makeSendOnce) :
    Atomic s (s.copyinMade policy name ref destType replyType) := by
  unfold copyinMade
  rcases copied : s.rightCopyin policy name ref destType false with ⟨_ | ⟨dest, destSoright⟩, s'⟩
  · rw [rightCopyin_error live copied]
    exact atomic_refuse s _
  have frame := rightCopyin_frame policy name false live destType
  rw [copied] at frame
  obtain ⟨-, -, entry⟩ := rightCopyin_live live copied
  -- what the reply needs of the entry is still there
  have still : (s'.entry ref).bits &&& ieBitsCompat = 0#32 ∧
      s'.rightCopyinCheck ref replyType = true := by
    rcases entry with moves | moves | ⟨moves, after, urefs⟩ | same
    · exact absurd moves destMoves.1
    · exact absurd moves destMoves.2
    · -- the entry has lost a send right, which no right made from a receive right needs
      subst moves after
      have compat := moveSend_and name ieBitsCompat urefs (by decide) (by decide)
      have receive := moveSend_and name typeReceive urefs (by decide) (by decide)
      refine ⟨compat.trans live.ordinary, ?_⟩
      rcases made with made | made | rfl | rfl
      · cases made
      · cases made
      · rw [rightCopyinCheck] at allowed ⊢
        rwa [receive]
      · rw [rightCopyinCheck] at allowed ⊢
        rwa [receive]
    · refine ⟨same ▸ live.ordinary, ?_⟩
      rw [rightCopyinCheck_congr same (frame.active _), allowed]
  have succeeds := rightCopyin_isOk policy name replyType still.1
  rw [still.2] at succeeds
  dsimp only
  rcases second : s'.rightCopyin policy name ref replyType true with ⟨_ | ⟨reply, replySoright⟩, s''⟩
  · rw [second] at succeeds
    cases succeeds
  · exact atomic_ok (by decide)

theorem atomic_copyinSame (all : s.AllActive) (destSends : destType ≠ .moveReceive) :
    Atomic s (s.copyinSame policy name destType replyType) := by
  unfold copyinSame
  split
  · exact atomic_refuse s _
  · exact atomic_refuse s _
  rename_i ref replyType found
  split
  · exact atomic_refuse s _
  rename_i allowed
  have allowed := Bool.of_not_eq_false allowed
  split
  · exact atomic_refuse s _
  rename_i once
  -- the four kinds of pairs: made, two copied, two moved, one of each
  split
  · rename_i made
    exact atomic_copyinMade (all ref) allowed ⟨destSends, fun moves => once (.inl moves)⟩ made
  split
  · rcases copied : s.rightCopyin policy name ref destType false with ⟨_ | ⟨dest, soright⟩, s'⟩
    · rw [rightCopyin_error (all ref) copied]
      exact atomic_refuse s _
    · exact atomic_ok (by decide)
  split
  · rcases copied : s.rightCopyinTwo policy name ref with ⟨_ | ⟨dest, soright⟩, s'⟩
    · rw [rightCopyinTwo_error (all ref) copied]
      exact atomic_refuse s _
    · exact atomic_ok (by decide)
  · rcases copied : s.rightCopyin policy name ref .moveSend false with ⟨_ | ⟨dest, soright⟩, s'⟩
    · rw [rightCopyin_error (all ref) copied]
      exact atomic_refuse s _
    · dsimp only
      split <;> exact atomic_ok (by decide)

theorem atomic_copyinAlone (all : s.AllActive) :
    Atomic s (s.copyinAlone policy destName replyName destType) := by
  unfold copyinAlone
  split
  · exact atomic_refuse s _
  rename_i ref found
  rcases copied : s.rightCopyin policy destName ref destType false with ⟨_ | ⟨dest, soright⟩, s'⟩
  · rw [rightCopyin_error (all ref) copied]
    exact atomic_refuse s _
  · exact atomic_ok (by decide)

variable {space : IpcSpace}

/-- A table slot is found under the name with its index and generation. -/
theorem lookup_slot {index : ℕ} (found : space.lookup name = some (.slot index)) :
    portIndex name = index ∧ ieBitsGen (space.table index).bits = portGen name := by
  unfold lookup treeLookup at found
  dsimp only at found
  split_ifs at found with mem gen <;> cases some.inj found
  exact ⟨rfl, not_not.mp gen⟩

/-- A tree entry is found under its name. -/
theorem lookup_tree {other : ℕ}
    (found : space.lookup name = some (.tree other)) : name = other := by
  unfold lookup treeLookup at found
  dsimp only at found
  split_ifs at found <;> cases some.inj found
  all_goals rfl

/-- Two names of one entry are the same name. -/
theorem lookup_inj {other : ℕ} (found : space.lookup name = some ref)
    (found' : space.lookup other = some ref) : name = other := by
  cases ref with
  | slot index =>
    obtain ⟨place, gen⟩ := lookup_slot found
    obtain ⟨place', gen'⟩ := lookup_slot found'
    exact name_ext (place.trans place'.symm) (gen.symm.trans gen')
  | tree node => exact (lookup_tree found).trans (lookup_tree found').symm

theorem atomic_copyinBoth (all : s.AllActive) (apart : destName ≠ replyName) :
    Atomic s (s.copyinBoth policy destName replyName destType replyType) := by
  unfold copyinBoth
  split
  · exact atomic_refuse s _
  · exact atomic_refuse s _
  · exact atomic_refuse s _
  rename_i destRef replyRef replyType destFound replyFound
  have refs : replyRef ≠ destRef := by
    rintro rfl
    exact apart (lookup_inj destFound replyFound)
  split
  · exact atomic_refuse s _
  rename_i allowed
  have allowed := Bool.of_not_eq_false allowed
  rcases copied : s.rightCopyin policy destName destRef destType false with
    ⟨_ | ⟨dest, destSoright⟩, s₁⟩
  · rw [rightCopyin_error (all destRef) copied]
    exact atomic_refuse s _
  obtain ⟨rfl, alive, -⟩ := rightCopyin_live (all destRef) copied
  have frame := rightCopyin_frame policy destName false (all destRef) destType
  rw [copied] at frame
  dsimp only
  -- the state in which the reply right is copied in, its port referenced
  generalize held : (if (s₁.entry replyRef).object ≠ 0 then
    s₁.reference (s₁.entry replyRef).object else s₁) = s₂
  have frame : Frame destRef s s₂ := by
    rw [← held]
    split
    · exact frame.reference _
    · exact frame
  have live := (all replyRef).of_frame frame refs
  have succeeds := rightCopyin_isOk policy replyName replyType live.ordinary
  rw [rightCopyinCheck_congr (frame.entry _ refs) (frame.active _), allowed] at succeeds
  have frame' := rightCopyin_frame policy replyName true live replyType
  rcases second : s₂.rightCopyin policy replyName replyRef replyType true with
    ⟨_ | ⟨reply, replySoright⟩, s₃⟩
  · rw [second] at succeeds
    cases succeeds
  rw [second] at frame'
  have stillAlive : (s₃.ports (s.entry destRef).object).active = true := by
    rw [frame'.active, frame.active, alive]
  have keep : s₃.mustUndo (s₁.entry replyRef).object (.port (s.entry destRef).object) reply =
      false := by
    simp [mustUndo, stillAlive]
  dsimp only
  rw [keep]
  exact atomic_ok (by decide)

theorem atomic_copyinPorts (policy : SpacePolicy) (destName replyName : ℕ)
    (replyType : Option MsgType) (all : s.AllActive) (destSends : destType ≠ .moveReceive) :
    Atomic s (s.copyinPorts policy destName replyName destType replyType) := by
  unfold copyinPorts
  split
  · exact atomic_copyinSame all destSends
  rename_i apart
  split
  · exact atomic_copyinAlone all
  · exact atomic_copyinBoth all apart

end Ports

/-! ## The whole copyin -/

section Header

variable {s : RightState} {policy : SpacePolicy}

theorem anySend?_ne_moveReceive {code : ℕ} {type : MsgType}
    (known : MsgType.anySend? code = some type) : type ≠ .moveReceive := by
  rintro rfl
  unfold MsgType.anySend? at known
  split at known <;> cases known

private theorem general_atomic (all : s.AllActive) (header : MsgHeader) (mbits : BitVec 32)
    (destName replyName notify : ℕ) :
    let outcome := s.copyinHeaderGeneral policy header mbits destName replyName notify
    (outcome.result ≠ .success →
      outcome.header = header ∧ outcome.state = s ∧ outcome.notifications = []) ∧
      outcome.guarded ≠ some false := by
  unfold copyinHeaderGeneral
  dsimp only
  split
  · exact ⟨fun _ => ⟨rfl, rfl, rfl⟩, fun refused => by cases refused⟩
  rename_i destType known
  split
  · exact ⟨fun _ => ⟨rfl, rfl, rfl⟩, fun refused => by cases refused⟩
  split
  · exact ⟨fun _ => ⟨rfl, rfl, rfl⟩, fun refused => by cases refused⟩
  split
  · exact ⟨fun _ => ⟨rfl, rfl, rfl⟩, fun refused => by cases refused⟩
  rename_i notify' _
  have atomic := atomic_copyinPorts policy destName replyName
    (MsgType.anySend? (msghBitsLocal mbits)) all (anySend?_ne_moveReceive known)
  split
  · rename_i result failed
    obtain ⟨same, quiet⟩ := atomic.1 result failed
    exact ⟨fun _ => ⟨rfl, same, quiet⟩, atomic.2⟩
  · exact ⟨fun refused => absurd rfl refused, atomic.2⟩

private theorem fast_success (simpleLocks : Bool) (header : MsgHeader) {outcome : HeaderOutcome}
    {mbits : BitVec 32} {destName replyName : ℕ}
    (fast : s.copyinAsync header mbits destName replyName = some outcome ∨
      s.copyinRequest simpleLocks mbits destName replyName = some outcome ∨
      s.copyinReply header mbits destName replyName = some outcome) :
    outcome.result = .success ∧ outcome.guarded = none := by
  rcases fast with fast | fast | fast
  · unfold copyinAsync at fast
    dsimp only at fast
    split at fast
    · cases fast
    split at fast
    · cases fast
    split at fast
    · cases fast
    · rw [← some.inj fast]
      exact ⟨rfl, rfl⟩
  · unfold copyinRequest at fast
    dsimp only at fast
    split at fast
    · cases fast
    split at fast
    · split at fast
      · cases fast
      · rw [← some.inj fast]
        exact ⟨rfl, rfl⟩
    · cases fast
  · unfold copyinReply at fast
    dsimp only at fast
    split at fast
    · cases fast
    split at fast
    · cases fast
    split at fast
    · cases fast
    · rw [← some.inj fast]
      exact ⟨rfl, rfl⟩

/-- **The header copyin is atomic.**  In a space whose named ports are all alive, a header copyin
that does not succeed leaves the header and the whole state, entries and ports, as they were and
sends no notification; and the copyin of a reply right that `ipc_right_copyin_check` has allowed is
never refused. -/
theorem copyinHeader_atomic (s : RightState) (policy : SpacePolicy) (simpleLocks : Bool)
    (bits : BitVec 32) (destName replyName notify : ℕ) (all : s.AllActive) :
    let outcome := s.copyinHeader policy simpleLocks bits destName replyName notify
    (outcome.result ≠ .success →
      outcome.header = ⟨bits, .name destName, .name replyName⟩ ∧ outcome.state = s ∧
        outcome.notifications = []) ∧
      outcome.guarded ≠ some false := by
  unfold copyinHeader
  dsimp only
  split
  · rename_i outcome fast
    have sent : outcome.result = .success ∧ outcome.guarded = none := by
      split_ifs at fast
      · exact fast_success simpleLocks _ (.inl fast)
      · exact fast_success simpleLocks ⟨bits, .name destName, .name replyName⟩ (.inr (.inl fast))
      · exact fast_success simpleLocks _ (.inr (.inr fast))
    exact ⟨fun refused => absurd sent.1 refused, by rw [sent.2]; exact fun refused => by cases refused⟩
  · exact general_atomic all _ _ destName replyName notify

end Header

/-- A space with two references to a send right in slot 1 and a receive right in slot 2. -/
def liveSpace : RightState where
  isActive := true
  space :=
    { table := fun i =>
        if i = 1 then ⟨0x05010002#32, 7, 0⟩ else if i = 2 then ⟨0x06020000#32, 8, 0⟩
        else ⟨0#32, 0, 0⟩
      tableSize := 4
      tableNext := 1
      tree := ⟨∅, fun _ => ⟨0#32, 0, 0⟩⟩
      treeTotal := 0
      treeSmall := 0 }
  ports _ := ⟨true, 2, 2, 0, 0, 0, 0#32, 0x206, 0, fun _ => none⟩
  hash _ := none
  marequests _ := false

theorem liveSpace_allActive : liveSpace.AllActive := by
  intro ref
  cases ref with
  | slot index =>
    by_cases first : index = 1
    · subst first
      exact ⟨by decide, fun _ => rfl, by decide⟩
    by_cases second : index = 2
    · subst second
      exact ⟨by decide, fun _ => rfl, by decide⟩
    have free : liveSpace.entry (.slot index) = ⟨0#32, 0, 0⟩ := by
      simp [entry, liveSpace, IpcSpace.entry, first, second]
    exact ⟨by rw [free]; decide, fun _ => rfl, by rw [free]; decide⟩
  | tree name =>
    have free : liveSpace.entry (.tree name) = ⟨0#32, 0, 0⟩ := rfl
    exact ⟨by rw [free]; decide, fun _ => rfl, by rw [free]; decide⟩

/-- A send right cannot be copied out of the receive right of slot 2, so nothing happens to the
send right of slot 1 that was to move. -/
theorem copyinHeader_atomic_liveSpace :
    let outcome := liveSpace.copyinHeader ⟨fun _ => 4, fun _ => 0⟩ true 0x1311#32 0x105 0x206 0
    (outcome.result ≠ .success →
      outcome.header = ⟨0x1311#32, .name 0x105, .name 0x206⟩ ∧ outcome.state = liveSpace ∧
        outcome.notifications = []) ∧
      outcome.guarded ≠ some false :=
  copyinHeader_atomic liveSpace ⟨fun _ => 4, fun _ => 0⟩ true 0x1311#32 0x105 0x206 0
    liveSpace_allActive

example :
    (liveSpace.copyinHeader ⟨fun _ => 4, fun _ => 0⟩ true 0x1311#32 0x105 0x206 0).result =
      .sendInvalidReply := by decide

end RightState

end Darwin.Ipc
