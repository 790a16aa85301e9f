import Darwin.Ipc.Circularity.Basic

/-!
# What the calls of `ipc_port_check_circularity` hold

The invariant says, for every program counter, which locks the thread holds and which chain it has
followed with them.  A chain that is locked cannot change, so what a call found out about it stays
true until the call unlocks it.  A step of one thread is seen by the others only through a frame:
their calls, their locks, and the ports that they have locked or that they own are unchanged.
-/

namespace Darwin.Ipc.Circularity

open Darwin.Lib

variable {T P : Type*}

/-! ## The invariant -/

/-- The thread holds the global lock. -/
def Pc.serialized : Pc P → Bool
  | .walk _ => true
  | .test _ => true
  | .circUnlockMultiple => true
  | .lockPort _ => true
  | .unlockMultiple _ => true
  | _ => false

/-- The ports that thread `t` has locked are those of the list. -/
def Owns (s : Sys T P) (t : T) (l : List P) : Prop :=
  ∀ p, s.owner p = some t ↔ p ∈ l

/-- The locks and the chain that go with a program counter. -/
def Holds (s : Sys T P) (t : T) (port dest : P) : Pc P → Prop
  | .start => Owns s t []
  | .quickLockPort => port ≠ dest ∧ Owns s t []
  | .quickTry => port ≠ dest ∧ Owns s t [port]
  | .quickCheck => port ≠ dest ∧ Owns s t [dest, port]
  | .quickUnlockDest => port ≠ dest ∧ Owns s t [dest, port]
  | .quickUnlockPort => port ≠ dest ∧ Owns s t [port]
  | .lockMultiple => Owns s t []
  | .walk base => ∃ l, Chain s.next dest l base ∧ Owns s t l
  | .test base => ∃ l, Chain s.next dest l base ∧ Owns s t (base :: l)
  | .circUnlockMultiple => ∃ l, Chain s.next dest l port ∧ Owns s t (l ++ [port])
  | .circUnlock none => Owns s t []
  | .circUnlock (some cur) => ∃ l, Chain s.next cur l port ∧ Owns s t (l ++ [port])
  | .lockPort base => base ≠ port ∧
      ∃ l, Chain s.next dest l base ∧ s.next base = none ∧ Owns s t (l ++ [base])
  | .unlockMultiple base => base ≠ port ∧
      ∃ l, Chain s.next dest l base ∧ s.next base = none ∧ Owns s t (port :: (l ++ [base]))
  | .setDest base => base ≠ port ∧
      ∃ l, Chain s.next dest l base ∧ s.next base = none ∧ Owns s t (port :: (l ++ [base]))
  | .unlockWalk cur base =>
    ∃ p l, cur = some p ∧ Chain s.next p l base ∧ Owns s t (l ++ [base])
  | .returned _ => Owns s t []

/-- What holds of a call under way. -/
structure CallInv (s : Sys T P) (t : T) (c : Call P) : Prop where
  limbo : c.pc.claims = true → (s.port c.port).InLimbo
  serialized : s.multiple = some t ↔ c.pc.serialized = true
  holds : Holds s t c.port c.dest c.pc

/-- What holds of a thread. -/
def ThreadInv (s : Sys T P) (t : T) : Prop :=
  match s.call t with
  | none => Owns s t [] ∧ s.multiple ≠ some t
  | some c => CallInv s t c

/-- The invariant of the system. -/
structure Sys.Inv (s : Sys T P) : Prop where
  acyclic : AcyclicPointers s.next
  threads : ∀ t, ThreadInv s t
  /-- one receive right has one owner -/
  distinct : ∀ t u c d, s.call t = some c → s.call u = some d → c.pc.claims = true →
    d.pc.claims = true → c.port = d.port → t = u

theorem ThreadInv.call {s : Sys T P} {t : T} {c : Call P} (inv : ThreadInv s t)
    (call : s.call t = some c) : CallInv s t c := by
  rw [ThreadInv, call] at inv
  exact inv

/-! ## The frame of a step -/

/-- Nothing that thread `t` relies on has changed. -/
structure Frame (s s' : Sys T P) (t : T) : Prop where
  call : s'.call t = s.call t
  owner : ∀ p, s'.owner p = some t ↔ s.owner p = some t
  multiple : s'.multiple = some t ↔ s.multiple = some t
  locked : ∀ p, s.owner p = some t → s'.port p = s.port p
  claimed : ∀ c, s.call t = some c → c.pc.claims = true → s'.port c.port = s.port c.port

variable {s s' : Sys T P} {t : T}

theorem Owns.frame (frame : Frame s s' t) {l : List P} (owns : Owns s t l) : Owns s' t l :=
  fun p => (frame.owner p).trans (owns p)

theorem Frame.next (frame : Frame s s' t) {p : P} (owned : s.owner p = some t) :
    s'.next p = s.next p := by
  rw [Sys.next, Sys.next, frame.locked p owned]

/-- A chain that the thread has locked. -/
theorem Frame.chain (frame : Frame s s' t) {a b : P} {l : List P} (chain : Chain s.next a l b)
    (owned : ∀ p ∈ l, s.owner p = some t) : Chain s'.next a l b :=
  chain.congr fun p mem => frame.next (owned p mem)

theorem Holds.frame (frame : Frame s s' t) {port dest : P} {pc : Pc P}
    (holds : Holds s t port dest pc) : Holds s' t port dest pc := by
  cases pc with
  | start => exact Owns.frame frame holds
  | quickLockPort => exact ⟨holds.1, holds.2.frame frame⟩
  | quickTry => exact ⟨holds.1, holds.2.frame frame⟩
  | quickCheck => exact ⟨holds.1, holds.2.frame frame⟩
  | quickUnlockDest => exact ⟨holds.1, holds.2.frame frame⟩
  | quickUnlockPort => exact ⟨holds.1, holds.2.frame frame⟩
  | lockMultiple => exact Owns.frame frame holds
  | walk base =>
    obtain ⟨l, chain, owns⟩ := holds
    exact ⟨l, frame.chain chain fun p mem => (owns p).mpr mem, owns.frame frame⟩
  | test base =>
    obtain ⟨l, chain, owns⟩ := holds
    refine ⟨l, frame.chain chain fun p mem => ?_, owns.frame frame⟩
    exact (owns p).mpr (List.mem_cons_of_mem _ mem)
  | circUnlockMultiple =>
    obtain ⟨l, chain, owns⟩ := holds
    refine ⟨l, frame.chain chain fun p mem => ?_, owns.frame frame⟩
    exact (owns p).mpr (List.mem_append_left _ mem)
  | circUnlock cur =>
    cases cur with
    | none => exact Owns.frame frame holds
    | some cur =>
      obtain ⟨l, chain, owns⟩ := holds
      refine ⟨l, frame.chain chain fun p mem => ?_, owns.frame frame⟩
      exact (owns p).mpr (List.mem_append_left _ mem)
  | lockPort base =>
    obtain ⟨other, l, chain, ends, owns⟩ := holds
    have owned : s.owner base = some t := (owns base).mpr (by simp)
    refine ⟨other, l, frame.chain chain fun p mem => ?_, (frame.next owned).trans ends,
      owns.frame frame⟩
    exact (owns p).mpr (List.mem_append_left _ mem)
  | unlockMultiple base =>
    obtain ⟨other, l, chain, ends, owns⟩ := holds
    have owned : s.owner base = some t := (owns base).mpr (by simp)
    refine ⟨other, l, frame.chain chain fun p mem => ?_, (frame.next owned).trans ends,
      owns.frame frame⟩
    exact (owns p).mpr (List.mem_cons_of_mem _ (List.mem_append_left _ mem))
  | setDest base =>
    obtain ⟨other, l, chain, ends, owns⟩ := holds
    have owned : s.owner base = some t := (owns base).mpr (by simp)
    refine ⟨other, l, frame.chain chain fun p mem => ?_, (frame.next owned).trans ends,
      owns.frame frame⟩
    exact (owns p).mpr (List.mem_cons_of_mem _ (List.mem_append_left _ mem))
  | unlockWalk cur base =>
    obtain ⟨p, l, here, chain, owns⟩ := holds
    refine ⟨p, l, here, frame.chain chain fun q mem => ?_, owns.frame frame⟩
    exact (owns q).mpr (List.mem_append_left _ mem)
  | returned circular => exact Owns.frame frame holds

/-- The invariant of a thread survives a step that leaves alone what the thread relies on. -/
theorem ThreadInv.frame (frame : Frame s s' t) (inv : ThreadInv s t) : ThreadInv s' t := by
  rw [ThreadInv] at inv ⊢
  rw [frame.call]
  cases call : s.call t with
  | none =>
    rw [call] at inv
    exact ⟨inv.1.frame frame, fun held => inv.2 (frame.multiple.mp held)⟩
  | some c =>
    rw [call] at inv
    refine ⟨fun claims => ?_, frame.multiple.trans inv.serialized, inv.holds.frame frame⟩
    rw [frame.claimed c call claims]
    exact inv.limbo claims

end Darwin.Ipc.Circularity
