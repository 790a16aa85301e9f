import Darwin.Lib.MembershipList
import Darwin.Vm.Page.Basic

/-!
# The invariant of the page queues

The queues and the table change independently, so the invariant has two parts, `QueuesInv` and
`TableInv`, and every elementary operation changes one of them and leaves the other alone.

-/

namespace Darwin.Vm

open Function (update update_of_ne update_self)
open Darwin.Lib

variable {P O : Type*}

/-! ## Frames -/

section Frames

/-- Two states with the same table. -/
structure SameTable (s t : Resident P O) : Prop where
  tabled : ∀ p, (t.page p).tabled = (s.page p).tabled
  object : ∀ p, (t.page p).object = (s.page p).object
  offset : ∀ p, (t.page p).offset = (s.page p).offset
  buckets : t.buckets = s.buckets
  memq : t.memq = s.memq
  resident : t.residentPageCount = s.residentPageCount

theorem SameTable.refl (s : Resident P O) : SameTable s s :=
  ⟨fun _ => rfl, fun _ => rfl, fun _ => rfl, rfl, rfl, rfl⟩

/-- Two states with the same queues. -/
structure SameQueues (s t : Resident P O) : Prop where
  on : ∀ p, (t.page p).on = (s.page p).on
  wired : ∀ p, (t.page p).wireCount = (s.page p).wireCount
  queue : t.queue = s.queue
  count : t.count = s.count
  wireCount : t.wireCount = s.wireCount

end Frames

/-! ## The two parts of the invariant -/

/-- The queues are as the flags say, and no page is on two of them or on one while it is wired. -/
structure QueuesInv [Fintype P] (s : Resident P O) : Prop where
  holds : ∀ q, Holds (s.queue q) (fun p => (s.page p).on q = true)
  counted : ∀ q, s.count q = (s.queue q).length
  exclusive : ∀ p q q', (s.page p).on q = true → (s.page p).on q' = true → q = q'
  wiredOff : ∀ p q, (s.page p).on q = true → (s.page p).wireCount = 0#16
  wires : s.wireCount = (Finset.univ.filter fun p => (s.page p).wireCount ≠ 0#16).card

/-- The table holds the tabled pages, at most one for an object and an offset. -/
structure TableInv (hash : O → BitVec 32 → ℕ) (s : Resident P O) : Prop where
  buckets : ∀ b, Holds (s.buckets b) fun p =>
    (s.page p).tabled = true ∧ hash (s.page p).object (s.page p).offset = b
  memq : ∀ o, Holds (s.memq o) fun p => (s.page p).tabled = true ∧ (s.page p).object = o
  resident : ∀ o, s.residentPageCount o = (s.memq o).length
  unique : ∀ p p', (s.page p).tabled = true → (s.page p').tabled = true →
    (s.page p).object = (s.page p').object → (s.page p).offset = (s.page p').offset → p = p'

variable {hash : O → BitVec 32 → ℕ} {s t : Resident P O} {m : P} {q : PageQueue}

theorem TableInv.of_same (inv : TableInv hash s) (same : SameTable s t) : TableInv hash t where
  buckets := by
    intro b
    rw [same.buckets]
    refine (inv.buckets b).congr fun p => ?_
    rw [same.tabled, same.object, same.offset]
  memq := by
    intro o
    rw [same.memq]
    refine (inv.memq o).congr fun p => ?_
    rw [same.tabled, same.object]
  resident := by
    intro o
    rw [same.resident, same.memq, inv.resident]
  unique := by
    intro p p' tabled tabled' object offset
    rw [same.tabled] at tabled tabled'
    rw [same.object, same.object] at object
    rw [same.offset, same.offset] at offset
    exact inv.unique p p' tabled tabled' object offset

/-- The count of wired pages is not part of the table. -/
theorem TableInv.withWires (inv : TableInv hash s) (n : ℤ) :
    TableInv hash { s with wireCount := n } :=
  inv.of_same ⟨fun _ => rfl, fun _ => rfl, fun _ => rfl, rfl, rfl, rfl⟩

theorem QueuesInv.of_same [Fintype P] (inv : QueuesInv s) (same : SameQueues s t) :
    QueuesInv t where
  holds := by
    intro q
    rw [same.queue]
    refine (inv.holds q).congr fun p => ?_
    rw [same.on]
  counted := by
    intro q
    rw [same.count, same.queue, inv.counted]
  exclusive := by
    intro p q q' here there
    rw [same.on] at here there
    exact inv.exclusive p q q' here there
  wiredOff := by
    intro p q here
    rw [same.on] at here
    rw [same.wired]
    exact inv.wiredOff p q here
  wires := by
    simp only [same.wired, same.wireCount]
    exact inv.wires

/-! ## Queue operations -/

section Queues

variable [DecidableEq P]

theorem setFlag_on (value : Bool) (p : P) (q' : PageQueue) :
    (setFlag s q m value p).on q' =
      if p = m ∧ q' = q then value else (s.page p).on q' := by
  by_cases here : p = m
  · subst here
    by_cases sameQueue : q' = q
    · subst sameQueue
      simp [setFlag]
    · simp [setFlag, sameQueue]
  · simp [setFlag, here]

/-- A flag is the only thing that `setFlag` changes. -/
theorem setFlag_frame (value : Bool) (p : P) :
    (setFlag s q m value p).tabled = (s.page p).tabled ∧
    (setFlag s q m value p).object = (s.page p).object ∧
    (setFlag s q m value p).offset = (s.page p).offset ∧
    (setFlag s q m value p).wireCount = (s.page p).wireCount := by
  by_cases here : p = m
  · subst here
    simp [setFlag]
  · simp [setFlag, here]

theorem setFlag_sameTable {value : Bool} (page : t.page = setFlag s q m value)
    (buckets : t.buckets = s.buckets) (memq : t.memq = s.memq)
    (resident : t.residentPageCount = s.residentPageCount) : SameTable s t where
  tabled := fun p => by rw [page, (setFlag_frame value p).1]
  object := fun p => by rw [page, (setFlag_frame value p).2.1]
  offset := fun p => by rw [page, (setFlag_frame value p).2.2.1]
  buckets := buckets
  memq := memq
  resident := resident

/-- One page enters or leaves one queue.  If it enters, it must be on no other queue and not be
wired. -/
theorem QueuesInv.setFlag [Fintype P] {value : Bool} {l : List P} (inv : QueuesInv s)
    (page : t.page = setFlag s q m value)
    (queue : t.queue = update s.queue q l)
    (count : t.count = update s.count q l.length)
    (wireCount : t.wireCount = s.wireCount)
    (holds : Holds l fun p => if p = m then value = true else (s.page p).on q = true)
    (entered : value = true →
      (∀ q', q' ≠ q → (s.page m).on q' = false) ∧ (s.page m).wireCount = 0#16) :
    QueuesInv t := by
  have on (p : P) (q' : PageQueue) : (t.page p).on q' =
      if p = m ∧ q' = q then value else (s.page p).on q' := by
    rw [page, setFlag_on]
  have wired (p : P) : (t.page p).wireCount = (s.page p).wireCount := by
    rw [page, (setFlag_frame value p).2.2.2]
  refine ⟨fun q' => ?_, fun q' => ?_, fun p q₁ q₂ here there => ?_, fun p q' here => ?_, ?_⟩
  case refine_1 =>
    rw [queue]
    by_cases sameQueue : q' = q
    · subst sameQueue
      rw [update_self]
      refine holds.congr fun p => ?_
      rw [on]
      by_cases here : p = m <;> simp [here]
    · rw [update_of_ne sameQueue]
      refine (inv.holds q').congr fun p => ?_
      rw [on]
      simp [sameQueue]
  case refine_2 =>
    rw [queue, count]
    by_cases sameQueue : q' = q
    · subst sameQueue
      rw [update_self, update_self]
    · rw [update_of_ne sameQueue, update_of_ne sameQueue, inv.counted]
  case refine_3 =>
    rw [on] at here there
    -- the page that enters is on no other queue
    by_cases moved : p = m
    · subst moved
      by_cases first : q₁ = q
      · subst first
        by_cases second : q₂ = q₁
        · exact second.symm
        · simp only [true_and, if_true, second, if_false] at here there
          rw [(entered here).1 q₂ second] at there
          exact absurd there Bool.false_ne_true
      · by_cases second : q₂ = q
        · subst second
          simp only [true_and, if_true, first, if_false] at here there
          rw [(entered there).1 q₁ first] at here
          exact absurd here Bool.false_ne_true
        · simp only [true_and, first, second, if_false] at here there
          exact inv.exclusive p q₁ q₂ here there
    · simp only [moved, false_and, if_false] at here there
      exact inv.exclusive p q₁ q₂ here there
  case refine_4 =>
    rw [on] at here
    rw [wired]
    split at here
    · rename_i moved
      rw [moved.1]
      exact (entered here).2
    · exact inv.wiredOff p q' here
  case refine_5 =>
    simp only [wired, wireCount]
    exact inv.wires

theorem takeOff_on (p : P) (q' : PageQueue) :
    ((takeOff s q m).page p).on q' = if p = m ∧ q' = q then false else (s.page p).on q' := by
  by_cases flagged : (s.page m).on q = true
  · rw [takeOff, if_pos flagged]
    exact setFlag_on false p q'
  rw [takeOff, if_neg flagged]
  split
  · rename_i here
    obtain ⟨rfl, rfl⟩ := here
    simpa using flagged
  · rfl

theorem takeOff_wired (p : P) : ((takeOff s q m).page p).wireCount = (s.page p).wireCount := by
  rw [takeOff]
  split
  · exact (setFlag_frame false p).2.2.2
  · rfl

theorem takeOff_sameTable : SameTable s (takeOff s q m) := by
  rw [takeOff]
  split
  · exact setFlag_sameTable rfl rfl rfl rfl
  · exact SameTable.refl s

theorem takeOff_inv [Fintype P] (inv : QueuesInv s) : QueuesInv (takeOff s q m) := by
  by_cases flagged : (s.page m).on q = true
  · rw [takeOff, if_pos flagged]
    refine inv.setFlag rfl rfl ?_ rfl ?_ (fun entered => absurd entered Bool.false_ne_true)
    · dsimp only
      rw [(inv.holds q).length_erase flagged, inv.counted]
    · refine (inv.holds q).erase.congr fun p => ?_
      by_cases here : p = m <;> simp [here]
  · rw [takeOff, if_neg flagged]
    exact inv

theorem enter_sameTable : SameTable s (enter s q m) := setFlag_sameTable rfl rfl rfl rfl

theorem enterFirst_sameTable : SameTable s (enterFirst s q m) := setFlag_sameTable rfl rfl rfl rfl

theorem enter_inv [Fintype P] (inv : QueuesInv s) (off : ∀ q', (s.page m).on q' = false)
    (unwired : (s.page m).wireCount = 0#16) : QueuesInv (enter s q m) := by
  refine inv.setFlag rfl rfl ?_ rfl ?_ (fun _ => ⟨fun q' _ => off q', unwired⟩)
  · dsimp only [enter]
    rw [inv.counted, List.length_append, List.length_singleton, Nat.cast_add, Nat.cast_one]
  · refine ((inv.holds q).append (by simp [off q])).congr fun p => ?_
    by_cases here : p = m <;> simp [here]

theorem enterFirst_inv [Fintype P] (inv : QueuesInv s) (off : ∀ q', (s.page m).on q' = false)
    (unwired : (s.page m).wireCount = 0#16) : QueuesInv (enterFirst s q m) := by
  refine inv.setFlag rfl rfl ?_ rfl ?_ (fun _ => ⟨fun q' _ => off q', unwired⟩)
  · dsimp only [enterFirst]
    rw [inv.counted, List.length_cons, Nat.cast_add, Nat.cast_one]
  · refine ((inv.holds q).cons (by simp [off q])).congr fun p => ?_
    by_cases here : p = m <;> simp [here]

end Queues

/-! ## Table operations -/

section Table

variable [DecidableEq P] [DecidableEq O]

theorem pageRemove_page (p : P) :
    (pageRemove hash s m).page p =
      if p = m then { s.page m with tabled := false } else s.page p := by
  rw [pageRemove]
  by_cases here : p = m
  · subst here
    by_cases tabled : (s.page p).tabled = true
    · simp [tabled]
    · have untabled : (s.page p).tabled = false := by simpa using tabled
      rw [if_pos (by simp [untabled]), if_pos rfl, ← untabled]
  · by_cases tabled : (s.page m).tabled = true
    · simp [tabled, here]
    · simp [tabled, here]

theorem pageRemove_sameQueues : SameQueues s (pageRemove hash s m) := by
  refine ⟨fun p => ?_, fun p => ?_, ?_, ?_, ?_⟩
  · rw [pageRemove_page]
    split <;> simp [*]
  · rw [pageRemove_page]
    split <;> simp [*]
  all_goals
    rw [pageRemove]
    split <;> rfl

theorem pageRemove_inv (inv : TableInv hash s) : TableInv hash (pageRemove hash s m) := by
  by_cases tabled : (s.page m).tabled = true
  · have page (p : P) := @pageRemove_page P O hash s m _ _ p
    have mem (p : P) : ((pageRemove hash s m).page p).tabled = true ↔
        (s.page p).tabled = true ∧ p ≠ m := by
      rw [page]
      by_cases here : p = m <;> simp [here]
    have object (p : P) : ((pageRemove hash s m).page p).object = (s.page p).object := by
      rw [page]
      by_cases here : p = m <;> simp [here]
    have offset (p : P) : ((pageRemove hash s m).page p).offset = (s.page p).offset := by
      rw [page]
      by_cases here : p = m <;> simp [here]
    have unfolded : pageRemove hash s m = { s with
        page := update s.page m { s.page m with tabled := false }
        buckets := update s.buckets (hash (s.page m).object (s.page m).offset)
          ((s.buckets (hash (s.page m).object (s.page m).offset)).erase m)
        memq := update s.memq (s.page m).object ((s.memq (s.page m).object).erase m)
        residentPageCount := update s.residentPageCount (s.page m).object
          (s.residentPageCount (s.page m).object - 1) } := by
      rw [pageRemove, if_neg (by simp [tabled])]
    refine ⟨fun b => ?_, fun o => ?_, fun o => ?_, fun p p' here there => ?_⟩
    case refine_1 =>
      have keys (p : P) (_ : p ≠ m) : hash ((pageRemove hash s m).page p).object
          ((pageRemove hash s m).page p).offset = hash (s.page p).object (s.page p).offset := by
        rw [object, offset]
      have holds := holds_family_erase inv.buckets mem keys b
      rw [unfolded] at holds ⊢
      exact holds
    case refine_2 =>
      have holds := holds_family_erase inv.memq mem (fun p _ => object p) o
      rw [unfolded] at holds ⊢
      exact holds
    case refine_3 =>
      rw [unfolded]
      dsimp only
      by_cases here : o = (s.page m).object
      · subst here
        rw [update_self, update_self, (inv.memq _).length_erase ⟨tabled, rfl⟩, inv.resident]
      · rw [update_of_ne here, update_of_ne here, inv.resident]
    case refine_4 =>
      rw [object, object, offset, offset]
      exact inv.unique p p' ((mem p).mp here).1 ((mem p').mp there).1
  · rw [pageRemove, if_pos (by simpa using tabled)]
    exact inv

/-- No page is tabled for an object and an offset. -/
def Vacant (s : Resident P O) (object : O) (offset : BitVec 32) : Prop :=
  ∀ p, (s.page p).tabled = true → ¬ ((s.page p).object = object ∧ (s.page p).offset = offset)

variable {object : O} {offset : BitVec 32}

theorem pageInsert_page (inserted : pageInsert hash s m object offset = some t) (p : P) :
    t.page p =
      if p = m then { s.page m with object := object, offset := offset, tabled := true }
      else s.page p := by
  rw [pageInsert] at inserted
  split at inserted
  · exact absurd inserted (by simp)
  cases inserted
  by_cases here : p = m
  · simp [here]
  · simp [here]

theorem pageInsert_sameQueues
    (inserted : pageInsert hash s m object offset = some t) : SameQueues s t := by
  have page := pageInsert_page inserted
  rw [pageInsert] at inserted
  split at inserted
  · exact absurd inserted (by simp)
  cases inserted
  refine ⟨fun p => ?_, fun p => ?_, rfl, rfl, rfl⟩
  · rw [page]
    split <;> simp [*]
  · rw [page]
    split <;> simp [*]

theorem pageInsert_inv (inv : TableInv hash s) (vacant : Vacant s object offset)
    (inserted : pageInsert hash s m object offset = some t) : TableInv hash t := by
  have page := pageInsert_page inserted
  rw [pageInsert] at inserted
  split at inserted
  · exact absurd inserted (by simp)
  rename_i untabled
  have mem (p : P) : (t.page p).tabled = true ↔ (s.page p).tabled = true ∨ p = m := by
    rw [page]
    by_cases here : p = m <;> simp [here]
  have others (p : P) (other : p ≠ m) : t.page p = s.page p := by
    rw [page, if_neg other]
  have new : (t.page m).object = object ∧ (t.page m).offset = offset := by
    rw [page, if_pos rfl]
    exact ⟨rfl, rfl⟩
  have state := Option.some.inj inserted
  have buckets : t.buckets = update s.buckets (hash object offset)
      (m :: s.buckets (hash object offset)) := by
    rw [← state]
  have memq : t.memq = update s.memq object (s.memq object ++ [m]) := by
    rw [← state]
  have resident : t.residentPageCount =
      update s.residentPageCount object (s.residentPageCount object + 1) := by
    rw [← state]
  refine ⟨fun b => ?_, fun o => ?_, fun o => ?_, fun p p' here there object_eq offset_eq => ?_⟩
  case refine_1 =>
    rw [buckets]
    refine holds_family_insert inv.buckets ((inv.buckets _).cons fun h => untabled h.1) untabled
      mem (fun p other => by rw [others p other]) ?_ b
    rw [new.1, new.2]
  case refine_2 =>
    rw [memq]
    exact holds_family_insert inv.memq ((inv.memq _).append fun h => untabled h.1) untabled
      mem (fun p other => by rw [others p other]) new.1 o
  case refine_3 =>
    rw [memq, resident]
    by_cases here : o = object
    · subst here
      rw [update_self, update_self, inv.resident, List.length_append,
        List.length_singleton, Nat.cast_add, Nat.cast_one]
    · rw [update_of_ne here, update_of_ne here, inv.resident]
  case refine_4 =>
    -- nothing else was tabled where the new page is
    have fresh (r : P) (other : r ≠ m) (tabled : (t.page r).tabled = true) :
        ¬ ((t.page r).object = (t.page m).object ∧ (t.page r).offset = (t.page m).offset) := by
      rw [others r other] at tabled ⊢
      rw [new.1, new.2]
      exact vacant r tabled
    by_cases first : p = m
    · by_cases second : p' = m
      · rw [first, second]
      · subst first
        exact absurd ⟨object_eq.symm, offset_eq.symm⟩ (fresh p' second there)
    · by_cases second : p' = m
      · subst second
        exact absurd ⟨object_eq, offset_eq⟩ (fresh p first here)
      rw [others p first, others p' second] at object_eq offset_eq
      rw [others p first] at here
      rw [others p' second] at there
      exact inv.unique p p' here there object_eq offset_eq

end Table

/-- Fields of a page that is not tabled do not matter to the table. -/
theorem TableInv.of_untabled (inv : TableInv hash s) (others : ∀ p, p ≠ m → t.page p = s.page p)
    (before : (s.page m).tabled = false) (after : (t.page m).tabled = false)
    (buckets : t.buckets = s.buckets) (memq : t.memq = s.memq)
    (resident : t.residentPageCount = s.residentPageCount) : TableInv hash t where
  buckets := by
    intro b
    rw [buckets]
    refine (inv.buckets b).congr fun p => ?_
    by_cases here : p = m
    · simp [here, before, after]
    · rw [others p here]
  memq := by
    intro o
    rw [memq]
    refine (inv.memq o).congr fun p => ?_
    by_cases here : p = m
    · simp [here, before, after]
    · rw [others p here]
  resident := by
    intro o
    rw [resident, memq, inv.resident]
  unique := by
    intro p p' tabled tabled'
    have other (r : P) (tabled : (t.page r).tabled = true) : r ≠ m := by
      rintro rfl
      rw [after] at tabled
      exact absurd tabled Bool.false_ne_true
    have same := others p (other p tabled)
    have same' := others p' (other p' tabled')
    rw [same] at tabled
    rw [same'] at tabled'
    rw [same, same']
    exact inv.unique p p' tabled tabled'

/-! ## Wiring -/

section Wiring

variable [Fintype P]

/-- The wire count of one page changes. -/
theorem QueuesInv.rewire (inv : QueuesInv s) (on : ∀ p, (t.page p).on = (s.page p).on)
    (queue : t.queue = s.queue) (count : t.count = s.count)
    (others : ∀ p, p ≠ m → (t.page p).wireCount = (s.page p).wireCount)
    (off : (∀ q, (s.page m).on q = false) ∨ (t.page m).wireCount = 0#16)
    (wires : t.wireCount = (Finset.univ.filter fun p => (t.page p).wireCount ≠ 0#16).card) :
    QueuesInv t where
  holds := by
    intro q
    rw [queue]
    refine (inv.holds q).congr fun p => ?_
    rw [on]
  counted := by
    intro q
    rw [count, queue, inv.counted]
  exclusive := by
    intro p q q' here there
    rw [on] at here there
    exact inv.exclusive p q q' here there
  wiredOff := by
    intro p q here
    rw [on] at here
    by_cases changed : p = m
    · subst changed
      rcases off with off | unwired
      · rw [off q] at here
        exact absurd here Bool.false_ne_true
      · exact unwired
    · rw [others p changed]
      exact inv.wiredOff p q here
  wires := wires

variable [DecidableEq P] {n : BitVec 16}

omit [Fintype P] in
theorem setWireCount_sameTable : SameTable s (setWireCount s m n) := by
  refine ⟨fun p => ?_, fun p => ?_, fun p => ?_, rfl, rfl, rfl⟩ <;>
  · by_cases here : p = m <;> simp [setWireCount, here]

omit [Fintype P] in
theorem setWireCount_on (p : P) : ((setWireCount s m n).page p).on = (s.page p).on := by
  by_cases here : p = m <;> simp [setWireCount, here]

omit [Fintype P] in
theorem setWireCount_wired (p : P) :
    ((setWireCount s m n).page p).wireCount = if p = m then n else (s.page p).wireCount := by
  by_cases here : p = m <;> simp [setWireCount, here]

/-- The first wiring of a page that is off the queues, and the counter with it. -/
theorem firstWire_inv (inv : QueuesInv s) (off : ∀ q, (s.page m).on q = false)
    (unwired : (s.page m).wireCount = 0#16) :
    QueuesInv (setWireCount { s with wireCount := s.wireCount + 1 } m 1#16) := by
  refine inv.rewire (m := m) setWireCount_on rfl rfl
    (fun p other => by rw [setWireCount_wired, if_neg other]) (.inl off) ?_
  have counted := card_filter_add_one (m := m) (A := fun p => (s.page p).wireCount ≠ 0#16)
    (B := fun p => ((setWireCount { s with wireCount := s.wireCount + 1 } m 1#16).page p).wireCount ≠ 0#16)
    (fun p other => by rw [setWireCount_wired, if_neg other])
    (not_not.mpr unwired)
    (by rw [setWireCount_wired, if_pos rfl]; decide)
  rw [counted]
  simp only [setWireCount, inv.wires, Nat.cast_add, Nat.cast_one]

variable (inv : QueuesInv s) (wired : (s.page m).wireCount ≠ 0#16)

include inv wired

/-- A change from one positive wire count to another. -/
theorem setWireCount_inv (positive : n ≠ 0#16) : QueuesInv (setWireCount s m n) := by
  have off (q : PageQueue) : (s.page m).on q = false := by
    by_contra flagged
    exact wired (inv.wiredOff m q (by simpa using flagged))
  refine inv.rewire (m := m) setWireCount_on rfl rfl
    (fun p other => by rw [setWireCount_wired, if_neg other]) (.inl off) ?_
  have same (p : P) : ((setWireCount s m n).page p).wireCount ≠ 0#16 ↔ (s.page p).wireCount ≠ 0#16 := by
    rw [setWireCount_wired]
    by_cases here : p = m
    · simp [here, wired, positive]
    · simp [here]
  simp only [same]
  exact inv.wires

/-- The last wiring of a page goes away, and the counter with it. -/
theorem lastUnwire_inv : QueuesInv { setWireCount s m 0#16 with wireCount := s.wireCount - 1 } := by
  refine inv.rewire (m := m) setWireCount_on rfl rfl
    (fun p other => (setWireCount_wired p).trans (if_neg other))
    (.inr ((setWireCount_wired m).trans (if_pos rfl))) ?_
  have counted := card_filter_add_one (m := m)
    (A := fun p => ((setWireCount s m 0#16).page p).wireCount ≠ 0#16)
    (B := fun p => (s.page p).wireCount ≠ 0#16)
    (fun p other => by rw [setWireCount_wired, if_neg other])
    (by simp [setWireCount_wired]) wired
  have before := inv.wires
  dsimp only
  rw [before, counted, Nat.cast_add, Nat.cast_one]
  omega

end Wiring

end Darwin.Vm
