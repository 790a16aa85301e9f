import Darwin.Ipc.Circularity.Invariant
import Mathlib.Data.Fintype.Card

/-!
# One step of a call

A step of a thread keeps the invariant of its own call, keeps the chains acyclic, and brings the
call closer to its end: the number of steps that it can still take is bounded by the statement it
has reached and by the number of ports that it has locked.
-/

namespace Darwin.Ipc.Circularity

open Option Sys Fintype
open Function (update update_of_ne update_self)
open Darwin.Lib

variable {T P : Type*} [DecidableEq P]

/-! ## Locks -/

variable {s s' : Sys T P} {t : T} {p : P} {l : List P}

theorem ipLock_eq_some (locked : s.ipLock t p = some s') :
    s.owner p = none ∧ s' = { s with owner := update s.owner p (some t) } := by
  rw [ipLock] at locked
  split at locked
  next free => exact ⟨free, (some.inj locked).symm⟩
  next => cases locked

theorem ipLock_of_free (free : s.owner p = none) :
    s.ipLock t p = some { s with owner := update s.owner p (some t) } :=
  if_pos free

theorem Owns.lock (owns : Owns s t l) :
    Owns { s with owner := update s.owner p (some t) } t (p :: l) := by
  intro q
  show update s.owner p (some t) q = some t ↔ q ∈ p :: l
  by_cases here : q = p
  · subst here
    simp
  · rw [update_of_ne here, owns q, List.mem_cons, or_iff_right here]

theorem Owns.unlock_head (owns : Owns s t (p :: l)) (once : p ∉ l) :
    Owns (s.ipUnlock p) t l := by
  intro q
  show update s.owner p none q = some t ↔ q ∈ l
  by_cases here : q = p
  · subst here
    simp [once]
  · rw [update_of_ne here, owns q, List.mem_cons, or_iff_right here]

omit [DecidableEq P] in
theorem Owns.congr {l' : List P} (owns : Owns s t l) (same : ∀ p, p ∈ l' ↔ p ∈ l) :
    Owns s t l' :=
  fun p => (owns p).trans (same p).symm

/-- The number of ports that a thread has locked. -/
def Sys.held [Fintype P] [DecidableEq T] (s : Sys T P) (t : T) : ℕ :=
  (Finset.univ.filter fun p => s.owner p = some t).card

section Held

variable [Fintype P] [DecidableEq T]

omit [DecidableEq P] in
theorem held_le (s : Sys T P) (t : T) : s.held t ≤ card P :=
  Finset.card_le_univ _

theorem held_lock {p : P} (free : s.owner p = none) :
    held { s with owner := update s.owner p (some t) } t = s.held t + 1 := by
  rw [held, held, ← Finset.card_insert_of_notMem (a := p) (by simp [free])]
  congr 1
  ext q
  by_cases here : q = p
  · subst here
    simp
  · simp [here]

theorem held_unlock {p : P} (owned : s.owner p = some t) :
    (s.ipUnlock p).held t + 1 = s.held t := by
  have unlocked : (s.ipUnlock p).owner = update s.owner p none := rfl
  rw [held, held, unlocked, ← Finset.card_insert_of_notMem (a := p) (by simp)]
  congr 1
  ext q
  by_cases here : q = p
  · subst here
    simp [owned]
  · simp [here]

end Held

/-! ## The new pointer -/

theorem setDestination_next {port dest : P} (limbo : (s.port port).InLimbo) :
    (s.setDestination port dest).next = update s.next port (some dest) := by
  funext p
  obtain ⟨active, unnamed, -⟩ := limbo
  by_cases here : p = port
  · subst here
    simp [next, setDestination, Port.transit, active, unnamed]
  · simp [next, setDestination, update_of_ne here]

/-! ## The length of a call -/

/-- How many steps a call can still take at most, among `ports` ports of which the thread has
locked `held`. -/
def Pc.remaining (ports held : ℕ) : Pc P → ℕ
  | .returned _ => 0
  | .circUnlock _ => 1 + held
  | .unlockWalk _ _ => 1 + held
  | .circUnlockMultiple => ports + 3
  | .setDest _ => ports + 3
  | .unlockMultiple _ => ports + 4
  | .lockPort _ => ports + 5
  | .walk _ => ports + 6 + 2 * (ports - held)
  | .test _ => ports + 6 + 2 * (ports - held) + 1
  | .lockMultiple => 3 * ports + 7
  | .quickUnlockPort => 3 * ports + 8
  | .quickUnlockDest => 3 * ports + 9
  | .quickCheck => 3 * ports + 10
  | .quickTry => 3 * ports + 11
  | .quickLockPort => 3 * ports + 12
  | .start => 3 * ports + 13

/-- How many steps the call of a thread can still take at most. -/
def Sys.remaining [Fintype P] [DecidableEq T] (s : Sys T P) (t : T) : ℕ :=
  match s.call t with
  | none => 0
  | some c => c.pc.remaining (card P) (s.held t)

/-! ## What a step does -/

/-- The call has found a circle, or `port == dest`. -/
def Pc.circular : Pc P → Bool
  | .circUnlockMultiple => true
  | .circUnlock _ => true
  | .returned circular => circular
  | _ => false

/-- Something that only thread `t` can have is taken or given back by it. -/
def Transfer (t : T) (old new : Option T) : Prop :=
  new = old ∨ ((old = none ∨ old = some t) ∧ (new = none ∨ new = some t))

theorem Transfer.other {old new : Option T} {u : T} (transfer : Transfer t old new) (ne : u ≠ t) :
    new = some u ↔ old = some u := by
  have other : some t ≠ some u := fun same => ne (some.inj same).symm
  rcases transfer with same | ⟨rfl | rfl, rfl | rfl⟩
  · rw [same]
  · rfl
  · exact ⟨fun same => absurd same other, fun same => nomatch same⟩
  · exact ⟨fun same => (nomatch same), fun same => absurd same other⟩
  · rfl

section Advanced

variable [Fintype P] [DecidableEq T] {c : Call P} {pc : Pc P}

/-- What a step of thread `t` in the call `c` does. -/
structure Advanced (s s' : Sys T P) (t : T) (c : Call P) (pc : Pc P) : Prop where
  call : s'.call = update s.call t (some { c with pc := pc })
  inv : CallInv s' t { c with pc := pc }
  acyclic : AcyclicPointers s'.next
  closer : pc.remaining (card P) (s'.held t) < c.pc.remaining (card P) (s.held t)
  owner : ∀ p, Transfer t (s.owner p) (s'.owner p)
  multiple : Transfer t s.multiple s'.multiple
  /-- a thread writes only to the port of its call, which it has locked and owns -/
  ports : ∀ p, s'.port p = s.port p ∨ (s.owner p = some t ∧ c.pc.claims = true ∧ p = c.port)
  claims : pc.claims = true → c.pc.claims = true
  fresh : pc ≠ .start
  decided : pc.circular = true → c.pc.circular = true ∨ c.port = c.dest ∨ s'.EndsIn c.dest c.port

variable (inv : CallInv s t c)

include inv

variable (acyclic : AcyclicPointers s.next)

include acyclic

omit [DecidableEq P] in
/-- A step that writes to no port. -/
theorem advanced_of_ports_eq {s₁ : Sys T P} (ports : s₁.port = s.port) (calls : s₁.call = s.call)
    (owner : ∀ p, Transfer t (s.owner p) (s₁.owner p)) (multiple : Transfer t s.multiple s₁.multiple)
    (claims : pc.claims = true → c.pc.claims = true)
    (serialized : s₁.multiple = some t ↔ pc.serialized = true)
    (holds : Holds s₁ t c.port c.dest pc) (fresh : pc ≠ .start)
    (closer : pc.remaining (card P) (s₁.held t) <
      c.pc.remaining (card P) (s.held t))
    (decided : pc.circular = true →
      c.pc.circular = true ∨ c.port = c.dest ∨ s₁.EndsIn c.dest c.port) :
    Advanced s (s₁.goto t c pc) t c pc where
  call := by rw [goto, calls]
  inv := by
    refine ⟨fun claimed => ?_, serialized, ?_⟩
    · show (s₁.port c.port).InLimbo
      rw [ports]
      exact inv.limbo (claims claimed)
    · cases pc with
      | circUnlock cur => cases cur <;> exact holds
      | _ => exact holds
  acyclic := by
    have same : (s₁.goto t c pc).next = s.next := by
      funext p
      show (s₁.port p).transit = (s.port p).transit
      rw [ports]
    rw [same]
    exact acyclic
  closer := closer
  owner := owner
  multiple := multiple
  ports p := .inl (congrFun ports p)
  claims := claims
  fresh := fresh
  decided := decided

omit [DecidableEq P] in
/-- A step that only goes on to another statement. -/
theorem advanced_goto (claims : pc.claims = true → c.pc.claims = true)
    (serialized : pc.serialized = c.pc.serialized)
    (holds : Holds s t c.port c.dest pc) (fresh : pc ≠ .start)
    (closer : pc.remaining (card P) (s.held t) < c.pc.remaining (card P) (s.held t))
    (decided : pc.circular = true →
      c.pc.circular = true ∨ c.port = c.dest ∨ s.EndsIn c.dest c.port) :
    Advanced s (s.goto t c pc) t c pc :=
  advanced_of_ports_eq inv acyclic rfl rfl (fun _ => .inl rfl) (.inl rfl) claims
    (serialized ▸ inv.serialized) holds fresh closer decided

variable {p base cur : P}

/-- A step that locks a port. -/
theorem advanced_lock
    (locked : s.ipLock t p = some s') (claims : pc.claims = true → c.pc.claims = true)
    (serialized : pc.serialized = c.pc.serialized) (holds : Holds s' t c.port c.dest pc)
    (fresh : pc ≠ .start)
    (closer : s'.held t = s.held t + 1 → pc.remaining (card P) (s'.held t) <
      c.pc.remaining (card P) (s.held t))
    (decided : pc.circular = false) : Advanced s (s'.goto t c pc) t c pc := by
  obtain ⟨free, rfl⟩ := ipLock_eq_some locked
  refine advanced_of_ports_eq inv acyclic rfl rfl (fun q => ?_) (.inl rfl) claims
    (serialized ▸ inv.serialized) holds fresh (closer (held_lock free))
    (fun circular => absurd circular (by simp [decided]))
  by_cases here : q = p
  · subst here
    exact .inr ⟨.inl free, .inr (update_self ..)⟩
  · exact .inl (update_of_ne here ..)

/-- A step that unlocks a port. -/
theorem advanced_unlock
    (owned : s.owner p = some t) (claims : pc.claims = true → c.pc.claims = true)
    (serialized : pc.serialized = c.pc.serialized)
    (holds : Holds (s.ipUnlock p) t c.port c.dest pc) (fresh : pc ≠ .start)
    (closer : (s.ipUnlock p).held t + 1 = s.held t →
      pc.remaining (card P) ((s.ipUnlock p).held t) <
        c.pc.remaining (card P) (s.held t))
    (decided : pc.circular = true → c.pc.circular = true) :
    Advanced s ((s.ipUnlock p).goto t c pc) t c pc := by
  refine advanced_of_ports_eq inv acyclic rfl rfl (fun q => ?_) (.inl rfl) claims
    (serialized ▸ inv.serialized) holds fresh (closer (held_unlock owned))
    (fun circular => .inl (decided circular))
  by_cases here : q = p
  · subst here
    exact .inr ⟨.inr owned, .inl (update_self ..)⟩
  · exact .inl (update_of_ne here ..)

omit [DecidableEq P] in
/-- A step that takes or gives back the global lock. -/
theorem advanced_multiple {new : Option T}
    (transfer : Transfer t s.multiple new) (claims : pc.claims = true → c.pc.claims = true)
    (serialized : new = some t ↔ pc.serialized = true) (holds : Holds s t c.port c.dest pc)
    (fresh : pc ≠ .start)
    (closer : pc.remaining (card P) (s.held t) < c.pc.remaining (card P) (s.held t))
    (decided : pc.circular = true → c.pc.circular = true) :
    Advanced s ({ s with multiple := new }.goto t c pc) t c pc := by
  refine advanced_of_ports_eq inv acyclic rfl rfl (fun q => .inl rfl) transfer claims serialized
    ?_ fresh closer (fun circular => .inl (decided circular))
  cases pc with
  | circUnlock cur => cases cur <;> exact holds
  | _ => exact holds

omit acyclic

omit inv

/-- The port joins the chain: the chain of `dest` is locked up to its end, and does not end in
`port`. -/
theorem advanced_setDest (here : c.pc = .setDest base) (inv : CallInv s t c)
    (acyclic : AcyclicPointers s.next) :
    Advanced s ((s.setDestination c.port c.dest).goto t c (.unlockWalk (some c.port) base)) t c
      (.unlockWalk (some c.port) base) := by
  have claimed : c.pc.claims = true := by rw [here]; rfl
  have limbo := inv.limbo claimed
  have holds : Holds s t c.port c.dest (.setDest base) := here ▸ inv.holds
  obtain ⟨other, l, chain, ends, owns⟩ := holds
  have free : s.next c.port = none := limbo.transit
  have next : (s.setDestination c.port c.dest).next = update s.next c.port (some c.dest) :=
    setDestination_next limbo
  have outside : c.port ∉ l := fun mem => chain.next_of_mem mem free
  refine
    { call := rfl
      inv := ⟨fun claims => (nomatch claims), ?_, c.port, c.port :: l, rfl, ?_, ?_⟩
      acyclic := ?_
      closer := ?_
      owner := fun _ => .inl rfl
      multiple := .inl rfl
      ports := fun p => ?_
      claims := fun claims => nomatch claims
      fresh := fun same => nomatch same
      decided := fun circular => nomatch circular }
  · have unserialized := inv.serialized
    rw [here] at unserialized
    exact unserialized
  · show Chain (s.setDestination c.port c.dest).next c.port (c.port :: l) base
    rw [next]
    refine Chain.cons (update_self ..) (chain.congr fun p mem => ?_)
    have ne : p ≠ c.port := fun same => outside (same ▸ mem)
    exact update_of_ne ne ..
  · exact owns
  · show AcyclicPointers (s.setDestination c.port c.dest).next
    rw [next]
    exact acyclic.update free chain ends other
  · have bound := held_le s t
    rw [here]
    show 1 + s.held t < card P + 3
    omega
  · by_cases same : p = c.port
    · exact .inr ⟨(owns p).mpr (by simp [same]), claimed, same⟩
    · exact .inl (update_of_ne same ..)

/-- One turn of the loop that unlocks a circle. -/
theorem advanced_circUnlock (here : c.pc = .circUnlock (some cur)) (inv : CallInv s t c)
    (acyclic : AcyclicPointers s.next) :
    Advanced s ((s.ipUnlock cur).goto t c (.circUnlock (s.port cur).destination)) t c
      (.circUnlock (s.port cur).destination) := by
  have limbo : (s.port c.port).InLimbo := inv.limbo (by rw [here]; rfl)
  have holds : Holds s t c.port c.dest (.circUnlock (some cur)) := here ▸ inv.holds
  obtain ⟨l, chain, owns⟩ := holds
  have owned : s.owner cur = some t := by
    refine (owns cur).mpr ?_
    cases l with
    | nil => exact List.mem_singleton.mpr chain
    | cons p l => exact chain.1 ▸ List.mem_cons_self
  refine advanced_unlock inv acyclic owned (fun _ => by rw [here]; rfl) (by rw [here]; rfl) ?_
    (fun same => nomatch same) ?_ (fun _ => by rw [here]; rfl)
  · cases l with
    | nil =>
      -- the last port of the circle is `port` itself, which is in limbo
      obtain rfl : cur = c.port := chain
      rw [limbo.2.2]
      exact Owns.unlock_head owns List.not_mem_nil
    | cons p l =>
      obtain ⟨rfl, d, link, rest⟩ := chain
      rw [Port.destination_of_transit link]
      have outside := rest.start_notMem acyclic link
      exact ⟨l, rest, Owns.unlock_head owns outside⟩
  · intro unlocked
    rw [here]
    show 1 + (s.ipUnlock cur).held t < 1 + s.held t
    omega

/-- One turn of the loop that unlocks the chain. -/
theorem advanced_unlockWalk (here : c.pc = .unlockWalk (some cur) base)
    (inv : CallInv s t c) (acyclic : AcyclicPointers s.next)
    (stepped : s.advanceCall t c = some s') : ∃ pc, Advanced s s' t c pc := by
  have holds : Holds s t c.port c.dest (.unlockWalk (some cur) base) := here ▸ inv.holds
  obtain ⟨p, l, same, chain, owns⟩ := holds
  obtain rfl : cur = p := some.inj same
  simp only [advanceCall, here] at stepped
  have ends := chain.end_notMem acyclic
  split at stepped
  case isTrue atBase =>
    subst atBase
    have empty : l = [] := by
      cases l with
      | nil => rfl
      | cons q l => exact absurd (chain.1 ▸ List.mem_cons_self) ends
    subst empty
    cases stepped
    refine ⟨.returned false, advanced_unlock inv acyclic ((owns cur).mpr (by simp))
      (fun claims => nomatch claims) (by rw [here]; rfl) ?_ (fun same => nomatch same) ?_
      (fun circular => nomatch circular)⟩
    · exact Owns.unlock_head owns List.not_mem_nil
    intro _
    rw [here]
    show 0 < 1 + s.held t
    omega
  case isFalse further =>
    cases l with
    | nil => exact absurd chain further
    | cons q l =>
      obtain ⟨rfl, d, link, rest⟩ := chain
      have outside := rest.start_notMem acyclic link
      rw [Port.destination_of_transit link] at stepped
      cases stepped
      refine ⟨_, advanced_unlock inv acyclic ((owns cur).mpr (by simp))
        (fun claims => nomatch claims) (by rw [here]; rfl) ?_ (fun same => nomatch same) ?_
        (fun circular => nomatch circular)⟩
      · exact ⟨d, l, rfl, rest, Owns.unlock_head owns outside⟩
      intro unlocked
      rw [here]
      show 1 + (s.ipUnlock cur).held t < 1 + s.held t
      omega

/-- Every step of a call keeps its invariant and brings it closer to its end. -/
theorem advanced_of_advanceCall (inv : CallInv s t c) (acyclic : AcyclicPointers s.next)
    (stepped : s.advanceCall t c = some s') : ∃ pc, Advanced s s' t c pc := by
  obtain ⟨port, dest, at_⟩ := c
  have holds : Holds s t port dest at_ := inv.holds
  have bound := held_le s t
  cases at_ with
  | start =>
    simp only [advanceCall, some.injEq] at stepped
    obtain rfl := stepped
    by_cases same : port = dest
    · rw [if_pos same]
      exact ⟨_, advanced_goto inv acyclic (fun claims => nomatch claims) rfl holds
        (fun same => nomatch same) (Nat.succ_pos _) (fun _ => .inr (.inl same))⟩
    · rw [if_neg same]
      exact ⟨_, advanced_goto inv acyclic (fun _ => rfl) rfl ⟨same, holds⟩
        (fun same => nomatch same) (Nat.lt_succ_self _) (fun circular => nomatch circular)⟩
  | quickLockPort =>
    simp only [advanceCall, map_eq_some_iff] at stepped
    obtain ⟨s₁, locked, rfl⟩ := stepped
    have owns : Owns s₁ t [port] := (ipLock_eq_some locked).2 ▸ holds.2.lock
    exact ⟨_, advanced_lock inv acyclic locked (fun _ => rfl) rfl ⟨holds.1, owns⟩
      (fun same => nomatch same) (fun _ => Nat.lt_succ_self _) rfl⟩
  | quickTry =>
    simp only [advanceCall] at stepped
    split at stepped
    case h_1 s₁ locked =>
      cases stepped
      have owns : Owns s₁ t [dest, port] := (ipLock_eq_some locked).2 ▸ holds.2.lock
      exact ⟨_, advanced_lock inv acyclic locked (fun _ => rfl) rfl ⟨holds.1, owns⟩
        (fun same => nomatch same) (fun _ => Nat.lt_succ_self _) rfl⟩
    case h_2 =>
      cases stepped
      refine ⟨_, advanced_goto inv acyclic (fun _ => rfl) rfl holds
        (fun same => nomatch same) ?_ (fun circular => nomatch circular)⟩
      show 3 * card P + 8 < 3 * card P + 11
      omega
  | quickCheck =>
    simp only [advanceCall] at stepped
    split at stepped
    case h_1 ends =>
      -- `dest` is the whole chain, and `port` is locked already
      cases stepped
      refine ⟨_, advanced_goto inv acyclic (fun _ => rfl) rfl
        ⟨holds.1.symm, [], Chain.nil dest, ends, holds.2.congr fun p => ?_⟩
        (fun same => nomatch same) ?_ (fun circular => nomatch circular)⟩
      · simp [or_comm]
      · show card P + 3 < 3 * card P + 10
        omega
    case h_2 =>
      cases stepped
      exact ⟨_, advanced_goto inv acyclic (fun _ => rfl) rfl holds
        (fun same => nomatch same) (Nat.lt_succ_self _) (fun circular => nomatch circular)⟩
  | quickUnlockDest =>
    cases stepped
    have once : dest ∉ [port] := by simpa using fun same => holds.1 same.symm
    exact ⟨_, advanced_unlock inv acyclic ((holds.2 dest).mpr List.mem_cons_self) (fun _ => rfl) rfl
      ⟨holds.1, holds.2.unlock_head once⟩ (fun same => nomatch same)
      (fun _ => Nat.lt_succ_self _) (fun circular => nomatch circular)⟩
  | quickUnlockPort =>
    cases stepped
    exact ⟨_, advanced_unlock inv acyclic ((holds.2 port).mpr List.mem_cons_self) (fun _ => rfl) rfl
      (holds.2.unlock_head List.not_mem_nil) (fun same => nomatch same)
      (fun _ => Nat.lt_succ_self _) (fun circular => nomatch circular)⟩
  | lockMultiple =>
    simp only [advanceCall] at stepped
    split at stepped
    case isTrue free =>
      cases stepped
      refine ⟨_, advanced_multiple inv acyclic (.inr ⟨.inl free, .inr rfl⟩) (fun _ => rfl)
        ⟨fun _ => rfl, fun _ => rfl⟩ ⟨[], Chain.nil dest, holds⟩ (fun same => nomatch same) ?_
        (fun circular => nomatch circular)⟩
      show card P + 6 + 2 * (card P - s.held t) < 3 * card P + 7
      omega
    case isFalse => cases stepped
  | walk base =>
    simp only [advanceCall, map_eq_some_iff] at stepped
    obtain ⟨s₁, locked, rfl⟩ := stepped
    obtain ⟨l, chain, owns⟩ := holds
    have owns' : Owns s₁ t (base :: l) := (ipLock_eq_some locked).2 ▸ owns.lock
    have chain' : Chain s₁.next dest l base := (ipLock_eq_some locked).2 ▸ chain
    refine ⟨_, advanced_lock inv acyclic locked (fun _ => rfl) rfl ⟨l, chain', owns'⟩
      (fun same => nomatch same) (fun more => ?_) rfl⟩
    have bound' := held_le s₁ t
    show card P + 6 + 2 * (card P - s₁.held t) + 1 <
      card P + 6 + 2 * (card P - s.held t)
    omega
  | test base =>
    simp only [advanceCall] at stepped
    obtain ⟨l, chain, owns⟩ := holds
    have owns' : Owns s t (l ++ [base]) := owns.congr fun p => by simp [or_comm]
    split at stepped
    case h_1 next link =>
      cases stepped
      exact ⟨_, advanced_goto inv acyclic (fun _ => rfl) rfl ⟨l ++ [base], chain.snoc link, owns'⟩
        (fun same => nomatch same) (Nat.lt_succ_self _) (fun circular => nomatch circular)⟩
    case h_2 ends =>
      cases stepped
      by_cases circle : port = base
      · subst circle
        rw [if_pos rfl]
        refine ⟨_, advanced_goto inv acyclic (fun _ => rfl) rfl ⟨l, chain, owns'⟩
          (fun same => nomatch same) ?_ (fun _ => .inr (.inr ⟨l, chain, ends⟩))⟩
        show card P + 3 < card P + 6 + 2 * (card P - s.held t) + 1
        omega
      · rw [if_neg circle]
        refine ⟨_, advanced_goto inv acyclic (fun _ => rfl) rfl
          ⟨fun same => circle same.symm, l, chain, ends, owns'⟩ (fun same => nomatch same) ?_
          (fun circular => nomatch circular)⟩
        show card P + 5 < card P + 6 + 2 * (card P - s.held t) + 1
        omega
  | circUnlockMultiple =>
    cases stepped
    have held : s.multiple = some t := inv.serialized.mpr rfl
    refine ⟨_, advanced_multiple inv acyclic (.inr ⟨.inr held, .inl rfl⟩) (fun _ => rfl)
      ⟨fun held => (nomatch held), fun held => nomatch held⟩ holds (fun same => nomatch same) ?_
      (fun _ => rfl)⟩
    show 1 + s.held t < card P + 3
    omega
  | circUnlock cur =>
    cases cur with
    | none =>
      cases stepped
      refine ⟨_, advanced_goto inv acyclic (fun claims => nomatch claims) rfl holds
        (fun same => nomatch same) ?_ (fun _ => .inl rfl)⟩
      show 0 < 1 + s.held t
      omega
    | some cur =>
      cases stepped
      exact ⟨_, advanced_circUnlock rfl inv acyclic⟩
  | lockPort base =>
    simp only [advanceCall, map_eq_some_iff] at stepped
    obtain ⟨s₁, locked, rfl⟩ := stepped
    obtain ⟨other, l, chain, ends, owns⟩ := holds
    obtain ⟨-, rfl⟩ := ipLock_eq_some locked
    exact ⟨_, advanced_lock inv acyclic locked (fun _ => rfl) rfl ⟨other, l, chain, ends, owns.lock⟩
      (fun same => nomatch same) (fun _ => Nat.lt_succ_self _) rfl⟩
  | unlockMultiple base =>
    cases stepped
    have held : s.multiple = some t := inv.serialized.mpr rfl
    exact ⟨_, advanced_multiple inv acyclic (.inr ⟨.inr held, .inl rfl⟩) (fun _ => rfl)
      ⟨fun held => (nomatch held), fun held => nomatch held⟩ holds (fun same => nomatch same)
      (Nat.lt_succ_self _) (fun circular => nomatch circular)⟩
  | setDest base =>
    cases stepped
    exact ⟨_, advanced_setDest rfl inv acyclic⟩
  | unlockWalk cur base =>
    cases cur with
    | none => cases stepped
    | some cur => exact advanced_unlockWalk rfl inv acyclic stepped
  | returned circular => cases stepped

end Advanced

end Darwin.Ipc.Circularity
