import Darwin.Ipc.Circularity.Call

/-!
# Any interleaving of calls and other changes

Every step of the system keeps the invariant: of the thread that takes it by the analysis of the
call, of the other threads by their frames.  The thread that holds the global lock waits only for
threads that do not wait, so some call can always go on.

## Main results

* `no_circles` - in every run the chains stay acyclic, `TRUE` is returned only for a circle, and
  every call comes to its end and gives back its locks
-/

namespace Darwin.Ipc.Circularity

open Option Sys
open Function (update update_of_ne update_self)
open Darwin.Lib

variable {T P : Type*} [DecidableEq T] [DecidableEq P]

variable {s s' : Sys T P} {t u : T} {c : Call P} {pc : Pc P}

/-! ## Steps of the environment -/

variable {new : Port P} {p : P}

omit [DecidableEq P] in
/-- The environment takes ports out of chains; only the calls put them in. -/
theorem PortChange.transit {old : Port P} (changes : PortChange old new) :
    new.transit = none := by
  cases changes with
  | receive name receiver active unnamed named =>
    simp [Port.transit, named]
  | limbo active => simp [Port.transit]
  | destroy name receiver => simp [Port.transit]
  | alloc name receiver dead named => simp [Port.transit, named]

omit [DecidableEq T] in
theorem frame_change (unlocked : s.owner p = none) (free : ¬ s.Claimed p)
    (u : T) : Frame s { s with port := update s.port p new } u where
  call := rfl
  owner _ := Iff.rfl
  multiple := Iff.rfl
  locked q owned := by
    have ne : q ≠ p := by
      rintro rfl
      rw [unlocked] at owned
      cases owned
    exact update_of_ne ne ..
  claimed d call claims := by
    have ne : d.port ≠ p := fun same => free ⟨u, d, call, claims, same⟩
    exact update_of_ne ne ..

omit [DecidableEq P] in
theorem frame_enter {call : Option (Call P)} (ne : u ≠ t) :
    Frame s { s with call := update s.call t call } u where
  call := update_of_ne ne ..
  owner _ := Iff.rfl
  multiple := Iff.rfl
  locked _ _ := rfl
  claimed _ _ _ := rfl

omit [DecidableEq T] in
theorem Sys.Inv.change (inv : s.Inv) (unlocked : s.owner p = none)
    (free : ¬ s.Claimed p) (changes : PortChange (s.port p) new) :
    Inv { s with port := update s.port p new } where
  acyclic := by
    refine inv.acyclic.mono fun x y link => ?_
    have eq : (update s.port p new x).transit = some y := link
    by_cases here : x = p
    · subst here
      rw [update_self, changes.transit] at eq
      cases eq
    · rwa [update_of_ne here] at eq
  threads u := (inv.threads u).frame (frame_change unlocked free u)
  distinct := inv.distinct

omit [DecidableEq T] [DecidableEq P] in
/-- A thread outside of a call holds no lock. -/
theorem Sys.Inv.idle (inv : s.Inv) (idle : s.Idle t) : Owns s t [] ∧ s.multiple ≠ some t := by
  have here := inv.threads t
  cases call : s.call t with
  | none =>
    rw [ThreadInv, call] at here
    exact here
  | some c =>
    have callInv := here.call call
    obtain ⟨circular, finished⟩ := idle c call
    have holds := callInv.holds
    have serialized := callInv.serialized
    rw [finished] at holds serialized
    exact ⟨holds, fun held => by cases serialized.mp held⟩

omit [DecidableEq P] in
theorem Sys.Inv.enter (inv : s.Inv) {port dest : P} (idle : s.Idle t) (free : ¬ s.Claimed port)
    (limbo : (s.port port).InLimbo) :
    Inv { s with call := update s.call t (some ⟨port, dest, .start⟩) } where
  acyclic := inv.acyclic
  threads u := by
    by_cases here : u = t
    · subst here
      obtain ⟨owns, unserialized⟩ := inv.idle idle
      rw [ThreadInv]
      simp only [update_self]
      exact ⟨fun _ => limbo, ⟨fun held => absurd held unserialized, fun held => by cases held⟩, owns⟩
    · exact (inv.threads u).frame (frame_enter here)
  distinct := by
    intro u v d e callU callV claimsU claimsV same
    dsimp only at callU callV
    by_cases hereU : u = t <;> by_cases hereV : v = t
    · rw [hereU, hereV]
    · subst hereU
      rw [update_self] at callU
      rw [update_of_ne hereV] at callV
      cases callU
      exact absurd ⟨v, e, callV, claimsV, same.symm⟩ free
    · subst hereV
      rw [update_self] at callV
      rw [update_of_ne hereU] at callU
      cases callV
      exact absurd ⟨u, d, callU, claimsU, same⟩ free
    · rw [update_of_ne hereU] at callU
      rw [update_of_ne hereV] at callV
      exact inv.distinct u v d e callU callV claimsU claimsV same

/-! ## Steps of the calls -/

section Advance

variable [Fintype P]

omit [DecidableEq P] in
/-- A step of another thread. -/
theorem Advanced.frame (inv : s.Inv) (call : s.call t = some c) (advanced : Advanced s s' t c pc)
    (ne : u ≠ t) : Frame s s' u where
  call := by rw [advanced.call, update_of_ne ne]
  owner p := (advanced.owner p).other ne
  multiple := advanced.multiple.other ne
  locked p owned := by
    rcases advanced.ports p with same | ⟨byT, -, -⟩
    · exact same
    · rw [byT] at owned
      exact absurd (some.inj owned).symm ne
  claimed d callU claims := by
    rcases advanced.ports d.port with same | ⟨-, claimsT, same⟩
    · exact same
    · exact absurd (inv.distinct u t d c callU call claims claimsT same) ne

omit [DecidableEq P] in
theorem Advanced.sysInv (inv : s.Inv) (call : s.call t = some c)
    (advanced : Advanced s s' t c pc) : s'.Inv where
  acyclic := advanced.acyclic
  threads u := by
    by_cases here : u = t
    · subst here
      rw [ThreadInv, advanced.call, update_self]
      exact advanced.inv
    · exact (inv.threads u).frame (advanced.frame inv call here)
  distinct := by
    -- the claims after the step are among those before it
    have before : ∀ v d, s'.call v = some d → d.pc.claims = true →
        ∃ d', s.call v = some d' ∧ d'.pc.claims = true ∧ d'.port = d.port := by
      intro v d callV claims
      rw [advanced.call] at callV
      by_cases here : v = t
      · subst here
        rw [update_self] at callV
        cases callV
        exact ⟨c, call, advanced.claims claims, rfl⟩
      · rw [update_of_ne here] at callV
        exact ⟨d, callV, claims, rfl⟩
    intro v w d e callV callW claimsV claimsW same
    obtain ⟨d', callV', claimsV', portV⟩ := before v d callV claimsV
    obtain ⟨e', callW', claimsW', portW⟩ := before w e callW claimsW
    exact inv.distinct v w d' e' callV' callW' claimsV' claimsW'
      (portV.trans (same.trans portW.symm))

/-- A step of a thread is a step of its call. -/
theorem Sys.Inv.advanced (inv : s.Inv) (stepped : s.advance t = some s') :
    ∃ c pc, s.call t = some c ∧ Advanced s s' t c pc := by
  rw [advance, bind_eq_some_iff] at stepped
  obtain ⟨c, call, stepped⟩ := stepped
  obtain ⟨pc, advanced⟩ := advanced_of_advanceCall ((inv.threads t).call call) inv.acyclic stepped
  exact ⟨c, pc, call, advanced⟩

theorem Sys.Inv.step (inv : s.Inv) (step : Step s s') : s'.Inv := by
  cases step with
  | advance t _ stepped =>
    obtain ⟨c, pc, call, advanced⟩ := inv.advanced stepped
    exact advanced.sysInv inv call
  | enter t port dest idle free limbo => exact inv.enter idle free limbo
  | change p new unlocked free changes => exact inv.change unlocked free changes

omit [DecidableEq P] in
theorem Frame.remaining (frame : Frame s s' t) : s'.remaining t = s.remaining t := by
  have held : s'.held t = s.held t := by
    rw [held, held]
    congr 1
    ext p
    simp only [Finset.mem_filter, Finset.mem_univ, true_and]
    exact frame.owner p
  rw [Sys.remaining, Sys.remaining, frame.call, held]

end Advance

/-! ## No deadlock -/

/-- The statements at which a thread may have to wait. -/
def Pc.waits : Pc P → Bool
  | .quickLockPort => true
  | .lockMultiple => true
  | .walk _ => true
  | .lockPort _ => true
  | _ => false

/-- A call goes on at every other statement. -/
theorem advance_of_not_waits (inv : s.Inv) (call : s.call t = some c) (busy : ¬ s.Idle t)
    (free : c.pc.waits = false) : ∃ s', s.advance t = some s' := by
  have holds := ((inv.threads t).call call).holds
  rw [advance, call, bind_some, advanceCall]
  obtain ⟨port, dest, at_⟩ := c
  cases at_ with
  | quickLockPort => cases free
  | lockMultiple => cases free
  | walk base => cases free
  | lockPort base => cases free
  | quickTry => dsimp only; split <;> exact ⟨_, rfl⟩
  | quickCheck => dsimp only; split <;> exact ⟨_, rfl⟩
  | test base => dsimp only; split <;> exact ⟨_, rfl⟩
  | circUnlock cur => cases cur <;> exact ⟨_, rfl⟩
  | unlockWalk cur base =>
    obtain ⟨p, l, rfl, -, -⟩ := holds
    dsimp only
    split <;> exact ⟨_, rfl⟩
  | returned circular =>
    refine absurd (fun d call' => ?_) busy
    rw [call] at call'
    cases call'
    exact ⟨circular, rfl⟩
  | _ => exact ⟨_, rfl⟩

/-- A thread that holds a port's lock, but not the global lock, does not wait. -/
theorem advance_of_owner (inv : s.Inv) (owned : s.owner p = some t)
    (unserialized : s.multiple ≠ some t) : ∃ s', s.advance t = some s' := by
  have busy : ¬ s.Idle t := fun idle => List.not_mem_nil (((inv.idle idle).1 p).mp owned)
  cases call : s.call t with
  | none => exact absurd (fun d call' => by cases call.symm.trans call') busy
  | some c =>
    have callInv := (inv.threads t).call call
    have holds := callInv.holds
    refine advance_of_not_waits inv call busy ?_
    obtain ⟨port, dest, at_⟩ := c
    cases at_ with
    | quickLockPort => exact absurd ((holds.2 p).mp owned) List.not_mem_nil
    | lockMultiple => exact absurd ((holds p).mp owned) List.not_mem_nil
    | walk base => exact absurd (callInv.serialized.mpr rfl) unserialized
    | lockPort base => exact absurd (callInv.serialized.mpr rfl) unserialized
    | _ => rfl

/-- The owner of the global lock goes on, or waits for a thread that does. -/
theorem advance_of_serialized (inv : s.Inv) (held : s.multiple = some t) :
    ∃ u s', s.advance u = some s' := by
  have busy : ¬ s.Idle t := fun idle => (inv.idle idle).2 held
  cases call : s.call t with
  | none => exact absurd (fun d call' => by cases call.symm.trans call') busy
  | some c =>
    have callInv := (inv.threads t).call call
    have holds := callInv.holds
    have serialized := callInv.serialized.mp held
    -- a port that `t` has not locked is free, or its owner goes on
    have unblocked : ∀ p, s.owner p ≠ some t → (∃ s', s.ipLock t p = some s') ∨
        ∃ u s', s.advance u = some s' := by
      intro p notOwn
      cases owner : s.owner p with
      | none => exact .inl ⟨_, ipLock_of_free owner⟩
      | some u =>
        have ne : s.multiple ≠ some u := by
          rw [held]
          intro same
          exact notOwn (owner.trans same.symm)
        exact .inr ⟨u, advance_of_owner inv owner ne⟩
    obtain ⟨port, dest, at_⟩ := c
    have step : ∀ s', s.advanceCall t ⟨port, dest, at_⟩ = some s' → s.advance t = some s' := by
      intro s' stepped
      rw [advance, call]
      exact stepped
    cases at_ with
    | walk base =>
      obtain ⟨l, chain, owns⟩ := holds
      have outside := chain.end_notMem inv.acyclic
      rcases unblocked base (fun owned => outside ((owns base).mp owned)) with ⟨s', locked⟩ | other
      · exact ⟨t, s'.goto t ⟨port, dest, .walk base⟩ (.test base),
          step _ (by simp only [advanceCall, locked, map_some])⟩
      · exact other
    | lockPort base =>
      obtain ⟨ne, l, chain, ends, owns⟩ := holds
      have limbo := callInv.limbo rfl
      have outside : port ∉ l ++ [base] := by
        intro mem
        rcases List.mem_append.mp mem with mem | last
        · exact chain.next_of_mem mem limbo.transit
        · exact ne (List.mem_singleton.mp last).symm
      rcases unblocked port (fun owned => outside ((owns port).mp owned)) with ⟨s', locked⟩ | other
      · exact ⟨t, s'.goto t ⟨port, dest, .lockPort base⟩ (.unlockMultiple base),
          step _ (by simp only [advanceCall, locked, map_some])⟩
      · exact other
    | test base => exact ⟨t, advance_of_not_waits inv call busy rfl⟩
    | circUnlockMultiple => exact ⟨t, advance_of_not_waits inv call busy rfl⟩
    | unlockMultiple base => exact ⟨t, advance_of_not_waits inv call busy rfl⟩
    | _ => cases serialized

/-- As long as a call is under way, some call goes on. -/
theorem no_deadlock (inv : s.Inv) (busy : ¬ s.Idle t) : ∃ u s', s.advance u = some s' := by
  cases call : s.call t with
  | none => exact absurd (fun d call' => by cases call.symm.trans call') busy
  | some c =>
    cases waits : c.pc.waits with
    | false => exact ⟨t, advance_of_not_waits inv call busy waits⟩
    | true =>
      have callInv := (inv.threads t).call call
      cases multiple : s.multiple with
      | some u => exact advance_of_serialized inv multiple
      | none =>
        obtain ⟨port, dest, at_⟩ := c
        cases at_ with
        | quickLockPort =>
          cases owner : s.owner port with
          | none =>
            refine ⟨t, goto { s with owner := update s.owner port (some t) } t
              ⟨port, dest, .quickLockPort⟩ .quickTry, ?_⟩
            rw [advance, call, bind_some]
            simp only [advanceCall, ipLock_of_free owner, map_some]
          | some u => exact ⟨u, advance_of_owner inv owner (by rw [multiple]; rintro ⟨⟩)⟩
        | lockMultiple =>
          refine ⟨t, goto { s with multiple := some t } t ⟨port, dest, .lockMultiple⟩
            (.walk dest), ?_⟩
          rw [advance, call, bind_some]
          simp only [advanceCall, if_pos multiple]
        | walk base => exact absurd (callInv.serialized.mpr rfl) (by rw [multiple]; rintro ⟨⟩)
        | lockPort base => exact absurd (callInv.serialized.mpr rfl) (by rw [multiple]; rintro ⟨⟩)
        | _ => cases waits

/-! ## Runs -/

omit [DecidableEq P] [DecidableEq T] in
theorem Sys.Initial.inv (initial : s.Initial) : s.Inv where
  acyclic := initial.acyclic
  threads t := by
    rw [ThreadInv, initial.noCalls t]
    refine ⟨fun p => ?_, ?_⟩
    · rw [initial.unlocked p]
      exact ⟨fun same => (by cases same), fun mem => absurd mem List.not_mem_nil⟩
    · rw [initial.unserialized]
      rintro ⟨⟩
  distinct t u c d call := by
    rw [initial.noCalls t] at call
    cases call

section Runs

variable [Fintype P] {seen : T → Prop}

theorem Run.inv (run : Run s seen) : s.Inv := by
  induction run with
  | initial s initial => exact initial.inv
  | step run step ih => exact ih.step step

/-- A circle that a call has found was there during the call. -/
theorem Run.circular (run : Run s seen) {c : Call P} (call : s.call t = some c)
    (circular : c.pc.circular = true) : c.port = c.dest ∨ seen t := by
  induction run generalizing c with
  | initial s initial =>
    rw [initial.noCalls t] at call
    cases call
  | @step s s' seen run step ih =>
    have fresh : c.pc ≠ .start := by
      intro start
      rw [start] at circular
      cases circular
    have kept : ∀ {d : Call P}, d.port = c.port → d.dest = c.dest →
        (d.port = d.dest ∨ seen t) → c.port = c.dest ∨ see seen s' t := by
      intro d port dest old
      rcases old with same | old
      · exact .inl (port ▸ dest ▸ same)
      · exact .inr ⟨c, call, .inr ⟨old, fresh⟩⟩
    cases step with
    | advance u _ stepped =>
      obtain ⟨d, pc, callU, advanced⟩ := run.inv.advanced stepped
      have call' := call
      rw [advanced.call] at call'
      by_cases here : t = u
      · subst here
        rw [update_self] at call'
        cases call'
        rcases advanced.decided circular with old | same | ends
        · exact kept (d := d) rfl rfl (ih callU old)
        · exact .inl same
        · exact .inr ⟨_, call, .inl ends⟩
      · rw [update_of_ne here] at call'
        exact kept rfl rfl (ih call' circular)
    | enter u port dest idle free limbo =>
      have call' := call
      by_cases here : t = u
      · subst here
        dsimp only at call'
        rw [update_self] at call'
        cases call'
        exact absurd rfl fresh
      · dsimp only at call'
        rw [update_of_ne here] at call'
        exact kept rfl rfl (ih call' circular)
    | change p new unlocked free changes => exact kept rfl rfl (ih call circular)

/-- A step brings the call that takes it closer to its end, and leaves the others where they
are. -/
theorem Sys.Inv.remaining (inv : s.Inv) (stepped : s.advance t = some s') :
    s'.remaining t < s.remaining t ∧ ∀ u, u ≠ t → s'.remaining u = s.remaining u := by
  obtain ⟨c, pc, call, advanced⟩ := inv.advanced stepped
  refine ⟨?_, fun u ne => (advanced.frame inv call ne).remaining⟩
  rw [Sys.remaining, Sys.remaining, advanced.call, update_self, call]
  exact advanced.closer

/-- For any number of calls of `ipc_port_check_circularity` on distinct ports in limbo, in any
interleaving with each other and with ports that are received and destroyed: the chains of ports in
transit are acyclic in every state; a call returns `TRUE` only if `port == dest`, or if at some
moment during the call the chain of `dest` ended in `port`; a call that has returned holds no lock;
each step of a call brings it closer to its end, which no other step undoes; and as long as a call
is under way, some call can take its next step. -/
theorem no_circles (run : Run s seen) :
    AcyclicPointers s.next ∧
    (∀ t c, s.call t = some c → c.pc = .returned true → c.port = c.dest ∨ seen t) ∧
    (∀ t c circular, s.call t = some c → c.pc = .returned circular →
      (∀ p, s.owner p ≠ some t) ∧ s.multiple ≠ some t) ∧
    (∀ t s', s.advance t = some s' → s'.remaining t < s.remaining t) ∧
    (∀ t s', Step s s' → ¬ s.Idle t → s'.remaining t ≤ s.remaining t) ∧
    (∀ t, ¬ s.Idle t → ∃ u s', s.advance u = some s') := by
  have inv := run.inv
  refine ⟨inv.acyclic, ?_, ?_, ?_, ?_, fun t busy => no_deadlock inv busy⟩
  · intro t c call returned
    exact run.circular call (by rw [returned]; rfl)
  · intro t c circular call returned
    have idle : s.Idle t := by
      intro d call'
      rw [call] at call'
      exact ⟨circular, some.inj call' ▸ returned⟩
    obtain ⟨owns, unserialized⟩ := inv.idle idle
    exact ⟨fun p owned => List.not_mem_nil ((owns p).mp owned), unserialized⟩
  · intro t s' stepped
    exact (inv.remaining stepped).1
  intro t s' step busy
  cases step with
  | advance u _ stepped =>
    by_cases here : t = u
    · subst here
      exact (inv.remaining stepped).1.le
    · exact ((inv.remaining stepped).2 t here).le
  | enter u port dest idle free limbo =>
    have ne : t ≠ u := by
      rintro rfl
      exact busy idle
    exact (frame_enter ne).remaining.le
  | change p new unlocked free changes => exact (frame_change unlocked free t).remaining.le

end Runs

/-! ## A circle -/

/-- Port `true` is in transit to port `false`, which is in limbo. -/
def sampleCircle : Sys Unit Bool where
  port p := { active := true, receiverName := machPortNull,
              destination := if p then some false else none }
  owner _ := none
  multiple := none
  call _ := none

/-- Some steps of one thread. -/
def Sys.advances (s : Sys T P) (t : T) : ℕ → Option (Sys T P)
  | 0 => some s
  | n + 1 => (s.advances t n).bind fun s => s.advance t

theorem Run.advances {seen : T → Prop} (run : Run s seen) {n : ℕ}
    (stepped : s.advances t n = some s') : ∃ seen', Run s' seen' := by
  induction n generalizing s' with
  | zero => exact ⟨seen, some.inj stepped ▸ run⟩
  | succ n ih =>
    obtain ⟨s₁, before, last⟩ := bind_eq_some_iff.mp stepped
    obtain ⟨seen₁, run₁⟩ := ih before
    exact ⟨_, run₁.step (.advance s₁ t s' last)⟩

/-- The thread has entered its call for port `false` and destination `true`. -/
def sampleCall : Sys Unit Bool :=
  { sampleCircle with
    call := update sampleCircle.call () (some ⟨false, true, .start⟩) }

theorem sampleCircle_initial : sampleCircle.Initial where
  unlocked _ := rfl
  unserialized := rfl
  noCalls _ := rfl
  acyclic := by
    have empty : AcyclicPointers fun _ : Bool => (none : Option Bool) := by
      intro p cycle
      obtain ⟨q, link, -⟩ := Relation.TransGen.head'_iff.mp cycle
      cases link
    have next : sampleCircle.next = update (fun _ => none) true (some false) := by
      funext p
      cases p <;> rfl
    rw [next]
    exact empty.update rfl (Chain.nil false) rfl (by decide)

/-- The call finds the circle, and ends. -/
theorem no_circles_sample : ∃ (s : Sys Unit Bool) (seen : Unit → Prop), Run s seen ∧
    s.call () = some ⟨false, true, .returned true⟩ ∧ seen () ∧ AcyclicPointers s.next := by
  have entered : Run sampleCall _ := (Run.initial _ sampleCircle_initial).step
    (.enter sampleCircle () false true (fun c call => nomatch call)
      (fun ⟨_, _, call, _⟩ => nomatch call) ⟨rfl, rfl, rfl⟩)
  obtain ⟨s, stepped, ended⟩ : ∃ s, sampleCall.advances () 15 = some s ∧
      s.call () = some ⟨false, true, .returned true⟩ := ⟨_, rfl, rfl⟩
  obtain ⟨seen, run⟩ := entered.advances stepped
  obtain ⟨acyclic, circular, -⟩ := no_circles run
  refine ⟨s, seen, run, ended, ?_, acyclic⟩
  rcases circular () _ ended rfl with same | seen
  · cases same
  · exact seen

end Darwin.Ipc.Circularity
