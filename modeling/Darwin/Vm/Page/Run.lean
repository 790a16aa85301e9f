import Darwin.Vm.Page.Invariant

/-!
# Runs of page operations

The operations of the resident page module keep its invariant as long as no wired page is freed, no
page is wired more often than its 16-bit count can hold, and pages are only entered at an object and
offset where none is tabled.  The sequential access policy at the end of `vm_page_alloc` does not
look at the wire count of the page it frees.

## Main results

* `pages_consistent`: in every run that respects these conditions the flags, the queues, the counts
  and the table agree.
* `policy_frees_wired_page`: the policy frees a wired page, which ends up on two queues.
-/

namespace Darwin.Vm

open Darwin.Lib Option

variable {P O : Type*} [DecidableEq P] [DecidableEq O]

/-! ## Runs -/

/-- A call of one of the page operations, with what it takes from the physical maps. -/
inductive PageOp (P O : Type*) where
  | alloc (call : AllocCall P O)
  | free (mem : P)
  /-- The pageout daemon frees an inactive page but leaves it in the table. -/
  | pageoutFree (mem : P)
  | wire (mem : P)
  | unwire (mem : P)
  | activate (mem : P)
  | deactivate (mem : P) (modified : Bool)
  | rename (mem : P) (object : O) (offset : BitVec 32)
  /-- `vm_fault` takes the page it found in the table off the queues. -/
  | fault (mem : P)

/-- The state after a call; `none` is a panic. -/
def PageOp.apply (hash : O → BitVec 32 → ℕ) (s : Resident P O) : PageOp P O → Option (Resident P O)
  | .alloc call =>
    match pageAlloc hash s call with
    | .exhausted => some s
    | .page _ s => some s
    | .panic => none
  | .free mem => some (pageFree hash s mem)
  | .pageoutFree mem => some (pageAddfree s mem)
  | .wire mem => some (pageWire s mem)
  | .unwire mem => some (pageUnwire s mem)
  | .activate mem => pageActivate s mem
  | .deactivate mem modified => some (pageDeactivate s mem modified)
  | .rename mem object offset => pageRename hash s mem object offset
  | .fault mem => some (faultTakePage s mem)

/-- The calls that are made at all: wired pages are unwired, pages that are not active activated,
the pageout daemon frees inactive pages and `vm_fault` works on tabled ones. -/
def PageOp.Admissible (s : Resident P O) : PageOp P O → Prop
  | .pageoutFree mem => (s.page mem).on .inactive = true
  | .unwire mem => (s.page mem).wireCount ≠ 0#16
  | .activate mem => (s.page mem).on .active = false
  | .fault mem => (s.page mem).tabled = true
  | _ => True

/-- The policy at the end of an allocation frees page `p`: it was allocated before, next to the new
page, in an object that is not shared and frees behind sequential access, and it is clean. -/
structure FreesPrevious (s : Resident P O) (call : AllocCall P O) (p : P) : Prop where
  sequential : call.policy &&& vmPolicySequential ≠ 0#16 ∧ call.policy ≠ vmPolicySeqDeactivate
  unmaps : call.sequentialUnmap = true ∧ call.shared = false
  adjacent : Adjacent call.pageSize call.offset (s.lastAlloc call.object)
  tabled : (s.page p).tabled = true ∧ (s.page p).object = call.object ∧
    (s.page p).offset = s.lastAlloc call.object
  clean : (s.page p).clean = true ∧ call.modified p = false

/-- The calls that keep the invariant. -/
def PageOp.Safe (s : Resident P O) : PageOp P O → Prop
  | .alloc call =>
    Vacant s call.object call.offset ∧ ∀ p, FreesPrevious s call p → (s.page p).wireCount = 0#16
  | .free mem => (s.page mem).wireCount = 0#16
  | .wire mem => (s.page mem).wireCount ≠ 65535#16
  | .rename mem object offset =>
    ∀ p, p ≠ mem → (s.page p).tabled = true →
      ¬ ((s.page p).object = object ∧ (s.page p).offset = offset)
  | _ => True

/-- One call that returns. -/
def PageStep (hash : O → BitVec 32 → ℕ) (Guard : Resident P O → PageOp P O → Prop)
    (s t : Resident P O) : Prop :=
  ∃ op : PageOp P O, op.Admissible s ∧ Guard s op ∧ op.apply hash s = some t

/-- The state that `vm_page_startup` leaves: every page is on the free queue. -/
structure Startup (s : Resident P O) : Prop where
  free : ∀ p, (s.page p).on .free = true ∧ (s.page p).on .active = false ∧
    (s.page p).on .inactive = false
  fresh : ∀ p, (s.page p).wireCount = 0#16 ∧ (s.page p).tabled = false
  queue : (s.queue .free).Nodup ∧ (∀ p, p ∈ s.queue .free) ∧ s.queue .active = [] ∧
    s.queue .inactive = []
  count : s.count .free = (s.queue .free).length ∧ s.count .active = 0 ∧ s.count .inactive = 0
  wireCount : s.wireCount = 0
  table : (∀ b, s.buckets b = []) ∧ (∀ o, s.memq o = []) ∧ ∀ o, s.residentPageCount o = 0

/-- The flags, the queues, the counts and the table agree. -/
structure PagesConsistent [Fintype P] (hash : O → BitVec 32 → ℕ) (s : Resident P O) : Prop where
  flags : ∀ q p, p ∈ s.queue q ↔ (s.page p).on q = true
  once : ∀ q, (s.queue q).Nodup
  oneQueue : ∀ p q q', p ∈ s.queue q → p ∈ s.queue q' → q = q'
  counts : ∀ q, s.count q = (s.queue q).length
  wires : s.wireCount = (Finset.univ.filter fun p => (s.page p).wireCount ≠ 0#16).card
  lookup : ∀ object offset p, pageLookup hash s object offset = some p ↔
    (s.page p).tabled = true ∧ (s.page p).object = object ∧ (s.page p).offset = offset
  unique : ∀ p p', (s.page p).tabled = true → (s.page p').tabled = true →
    (s.page p).object = (s.page p').object → (s.page p).offset = (s.page p').offset → p = p'
  resident : ∀ object, s.residentPageCount object =
    (Finset.univ.filter fun p => (s.page p).tabled = true ∧ (s.page p).object = object).card

/-! ## The invariant along a run -/

/-- Both parts of the invariant. -/
structure PageInv [Fintype P] (hash : O → BitVec 32 → ℕ) (s : Resident P O) : Prop where
  queues : QueuesInv s
  table : TableInv hash s

variable [Fintype P] {hash : O → BitVec 32 → ℕ} {s t : Resident P O} {m : P} {q : PageQueue}

omit [DecidableEq P] [Fintype P] in
theorem pageLookup_eq_some (inv : TableInv hash s) (object : O) (offset : BitVec 32) (p : P) :
    pageLookup hash s object offset = some p ↔
      (s.page p).tabled = true ∧ (s.page p).object = object ∧ (s.page p).offset = offset := by
  rw [pageLookup, (inv.buckets _).find?_eq_some_iff]
  · simp only [decide_eq_true_eq]
    constructor
    · rintro ⟨⟨tabled, -⟩, here⟩
      exact ⟨tabled, here⟩
    · rintro ⟨tabled, rfl, rfl⟩
      exact ⟨⟨tabled, rfl⟩, rfl, rfl⟩
  · rintro p p' ⟨tabled, -⟩ ⟨tabled', -⟩ here there
    simp only [decide_eq_true_eq] at here there
    exact inv.unique p p' tabled tabled' (here.1.trans there.1.symm) (here.2.trans there.2.symm)

omit [DecidableEq P] in
theorem PageInv.consistent (inv : PageInv hash s) : PagesConsistent hash s where
  flags := fun q p => (inv.queues.holds q).mem_iff p
  once := fun q => (inv.queues.holds q).nodup
  oneQueue := by
    intro p q q' here there
    exact inv.queues.exclusive p q q' (((inv.queues.holds q).mem_iff p).mp here)
      (((inv.queues.holds q').mem_iff p).mp there)
  counts := inv.queues.counted
  wires := inv.queues.wires
  lookup := pageLookup_eq_some inv.table
  unique := inv.table.unique
  resident := by
    intro object
    rw [inv.table.resident, (inv.table.memq object).length_eq_card]

omit [DecidableEq P] [DecidableEq O] in
theorem Startup.inv (startup : Startup s) : PageInv hash s := by
  obtain ⟨nodup, all, active, inactive⟩ := startup.queue
  obtain ⟨buckets, memq, resident⟩ := startup.table
  have untabled (p : P) : (s.page p).tabled = false := (startup.fresh p).2
  refine ⟨⟨?_, ?_, ?_, ?_, ?_⟩, ⟨?_, ?_, ?_, ?_⟩⟩
  · intro q
    cases q with
    | free => exact ⟨nodup, fun p => by simp [all p, (startup.free p).1]⟩
    | active => exact ⟨by simp [active], fun p => by simp [active, (startup.free p).2.1]⟩
    | inactive => exact ⟨by simp [inactive], fun p => by simp [inactive, (startup.free p).2.2]⟩
  · intro q
    cases q with
    | free => exact startup.count.1
    | active => simp [active, startup.count.2.1]
    | inactive => simp [inactive, startup.count.2.2]
  · intro p q q' here there
    obtain ⟨-, notActive, notInactive⟩ := startup.free p
    cases q <;> cases q' <;> simp_all
  · intro p q _
    exact (startup.fresh p).1
  · rw [startup.wireCount]
    simp [(startup.fresh _).1]
  · intro b
    exact ⟨by simp [buckets], fun p => by simp [buckets, untabled]⟩
  · intro o
    exact ⟨by simp [memq], fun p => by simp [memq, untabled]⟩
  · intro o
    simp [memq, resident]
  · intro p p' tabled
    rw [untabled p] at tabled
    exact absurd tabled Bool.false_ne_true

/-! ### Operations on the queues alone -/

section QueueOperations

omit [DecidableEq O]

theorem takeOff_pageInv (inv : PageInv hash s) : PageInv hash (takeOff s q m) :=
  ⟨takeOff_inv inv.queues, inv.table.of_same takeOff_sameTable⟩

variable (inv : PageInv hash s) (off : ∀ q', (s.page m).on q' = false)
  (unwired : (s.page m).wireCount = 0#16)

include inv off unwired

theorem enter_pageInv : PageInv hash (enter s q m) :=
  ⟨enter_inv inv.queues off unwired, inv.table.of_same enter_sameTable⟩

theorem enterFirst_pageInv : PageInv hash (enterFirst s q m) :=
  ⟨enterFirst_inv inv.queues off unwired, inv.table.of_same enterFirst_sameTable⟩

omit inv off unwired

omit [Fintype P] in
/-- After the two tests for the paging queues a page that is not free is on no queue. -/
theorem takeOff_paging_off (notFree : (s.page m).on .free = false) (q' : PageQueue) :
    ((takeOff (takeOff s .active m) .inactive m).page m).on q' = false := by
  rw [takeOff_on, takeOff_on]
  cases q' with
  | free => simp [notFree]
  | active => simp
  | inactive => simp

variable (inv : PageInv hash s)

include inv

theorem pageAddfree_inv (notFree : (s.page m).on .free = false)
    (unwired : (s.page m).wireCount = 0#16) : PageInv hash (pageAddfree s m) := by
  have taken : PageInv hash (takeOff (takeOff s .active m) .inactive m) :=
    takeOff_pageInv (takeOff_pageInv inv)
  rw [pageAddfree]
  split
  · refine enter_pageInv taken (takeOff_paging_off notFree) ?_
    rw [takeOff_wired, takeOff_wired, unwired]
  · exact taken

theorem pageWire_inv (room : (s.page m).wireCount ≠ 65535#16) : PageInv hash (pageWire s m) := by
  rw [pageWire]
  by_cases first : (s.page m).wireCount = 0#16
  · simp only [first, if_true]
    -- off the three queues, the page is wired for the first time
    have taken : PageInv hash (takeOff (takeOff (takeOff s .active m) .inactive m) .free m) :=
      takeOff_pageInv (takeOff_pageInv (takeOff_pageInv inv))
    have unwired : ((takeOff (takeOff (takeOff s .active m) .inactive m) .free m).page m).wireCount =
        0#16 := by
      rw [takeOff_wired, takeOff_wired, takeOff_wired, first]
    have off (q' : PageQueue) :
        ((takeOff (takeOff (takeOff s .active m) .inactive m) .free m).page m).on q' = false := by
      rw [takeOff_on, takeOff_on, takeOff_on]
      cases q' <;> simp
    rw [unwired]
    exact ⟨firstWire_inv taken.queues off unwired,
      (taken.table.withWires _).of_same setWireCount_sameTable⟩
  · simp only [first, if_false]
    have counted : (s.page m).wireCount + 1#16 ≠ 0#16 := by
      intro wrapped
      exact room (by bv_omega)
    exact ⟨setWireCount_inv inv.queues first counted, inv.table.of_same setWireCount_sameTable⟩

theorem pageUnwire_inv (wired : (s.page m).wireCount ≠ 0#16) : PageInv hash (pageUnwire s m) := by
  rw [pageUnwire]
  simp only [setWireCount_wired, if_true]
  by_cases last : (s.page m).wireCount - 1#16 = 0#16
  · rw [if_pos last, last]
    have unwired : PageInv hash { setWireCount s m 0#16 with wireCount := s.wireCount - 1 } :=
      ⟨lastUnwire_inv inv.queues wired, (inv.table.of_same setWireCount_sameTable).withWires _⟩
    have off (q' : PageQueue) : ((setWireCount s m 0#16).page m).on q' = false := by
      rw [setWireCount_on]
      by_contra flagged
      exact wired (inv.queues.wiredOff m q' (by simpa using flagged))
    exact enter_pageInv (q := .active) unwired off ((setWireCount_wired m).trans (if_pos rfl))
  · rw [if_neg last]
    exact ⟨setWireCount_inv inv.queues wired last, inv.table.of_same setWireCount_sameTable⟩

/-- Neither part of the invariant mentions the fields that the laundry test changes. -/
theorem sortLaundry_inv (modified : Bool) : PageInv hash (sortLaundry s m modified) := by
  constructor
  · refine inv.queues.of_same ⟨fun p => ?_, fun p => ?_, rfl, rfl, rfl⟩ <;>
    · by_cases here : p = m <;> simp [sortLaundry, here]
  · refine inv.table.of_same ⟨fun p => ?_, fun p => ?_, fun p => ?_, rfl, rfl, rfl⟩ <;>
    · by_cases here : p = m <;> simp [sortLaundry, here]

theorem pageDeactivateAge_inv (age modified : Bool) :
    PageInv hash (pageDeactivateAge s m age modified) := by
  rw [pageDeactivateAge]
  split
  case isFalse => exact inv
  case isTrue active =>
    have off (q' : PageQueue) : ((takeOff s .active m).page m).on q' = false := by
      rw [takeOff_on]
      by_cases here : q' = .active
      · simp [here]
      · simp only [here, and_false, if_false]
        by_contra flagged
        exact here (inv.queues.exclusive m q' .active (by simpa using flagged) active)
    have unwired : ((takeOff s .active m).page m).wireCount = 0#16 := by
      rw [takeOff_wired]
      exact inv.queues.wiredOff m .active active
    apply sortLaundry_inv
    split
    · exact enterFirst_pageInv (takeOff_pageInv inv) off unwired
    · exact enter_pageInv (takeOff_pageInv inv) off unwired

theorem pageActivate_inv (notActive : (s.page m).on .active = false)
    (activated : pageActivate s m = some t) : PageInv hash t := by
  have taken : PageInv hash (takeOff (takeOff s .inactive m) .free m) :=
    takeOff_pageInv (takeOff_pageInv inv)
  have off (q' : PageQueue) : ((takeOff (takeOff s .inactive m) .free m).page m).on q' = false := by
    rw [takeOff_on, takeOff_on]
    cases q' with
    | free => simp
    | active => simp [notActive]
    | inactive => simp
  rw [pageActivate] at activated
  split at activated
  · rename_i unwired
    rw [if_neg (by simp [off])] at activated
    cases activated
    exact enter_pageInv taken off unwired
  · cases activated
    exact taken

theorem faultTakePage_inv : PageInv hash (faultTakePage s m) :=
  takeOff_pageInv (takeOff_pageInv (takeOff_pageInv inv))

end QueueOperations

/-! ### Operations on the table -/

section TableOperations

theorem pageRemove_pageInv (inv : PageInv hash s) : PageInv hash (pageRemove hash s m) :=
  ⟨inv.queues.of_same pageRemove_sameQueues, pageRemove_inv inv.table⟩

theorem pageFree_inv (inv : PageInv hash s) (unwired : (s.page m).wireCount = 0#16) :
    PageInv hash (pageFree hash s m) := by
  have removed : PageInv hash (pageRemove hash s m) := pageRemove_pageInv inv
  rw [pageFree]
  split
  · rename_i notFree
    refine pageAddfree_inv removed (by simpa using notFree) ?_
    rw [pageRemove_sameQueues.wired, unwired]
  · exact removed

theorem pageFreeHead_inv (inv : PageInv hash s) (unwired : (s.page m).wireCount = 0#16) :
    PageInv hash (pageFreeHead hash s m) := by
  have removed : PageInv hash (pageRemove hash s m) := pageRemove_pageInv inv
  rw [pageFreeHead]
  split
  · exact removed
  rename_i notFree
  have taken : PageInv hash
      (takeOff (takeOff (pageRemove hash s m) .active m) .inactive m) :=
    takeOff_pageInv (takeOff_pageInv removed)
  dsimp only
  split
  · refine enterFirst_pageInv taken (takeOff_paging_off (by simpa using notFree)) ?_
    rw [takeOff_wired, takeOff_wired, pageRemove_sameQueues.wired, unwired]
  · exact taken

variable {object : O} {offset : BitVec 32}

omit [Fintype P] in
theorem pageRemove_vacant (vacant : ∀ p, p ≠ m → (s.page p).tabled = true →
      ¬ ((s.page p).object = object ∧ (s.page p).offset = offset)) :
    Vacant (pageRemove hash s m) object offset := by
  intro p tabled
  rw [pageRemove_page] at tabled ⊢
  by_cases here : p = m
  · simp [here] at tabled
  · rw [if_neg here] at tabled ⊢
    exact vacant p here tabled

theorem pageRename_inv (inv : PageInv hash s) (vacant : ∀ p, p ≠ m → (s.page p).tabled = true →
      ¬ ((s.page p).object = object ∧ (s.page p).offset = offset))
    (renamed : pageRename hash s m object offset = some t) : PageInv hash t := by
  have removed : PageInv hash (pageRemove hash s m) := pageRemove_pageInv inv
  exact ⟨removed.queues.of_same (pageInsert_sameQueues renamed),
    pageInsert_inv removed.table (pageRemove_vacant vacant) renamed⟩

/-- The policy keeps the invariant if the page it frees is not wired. -/
theorem policyApply_inv {shared modified : Bool} {temperature : Deactivate} (inv : PageInv hash s)
    (unwired : shared = false → temperature = .now → (s.page m).clean = true →
      modified = false → (s.page m).wireCount = 0#16) :
    PageInv hash (policyApply hash s shared m temperature modified) := by
  have deactivated : PageInv hash
      (if (s.page m).on .active then pageDeactivate s m modified else s) := by
    split
    · exact pageDeactivateAge_inv inv false modified
    · exact inv
  rw [policyApply.eq_def]
  split
  · exact inv
  rename_i notShared
  cases temperature with
  | soon => exact deactivated
  | now =>
    dsimp only
    split
    · rename_i frees
      rw [Bool.and_eq_true, Bool.not_eq_true'] at frees
      exact pageFreeHead_inv inv (unwired (by simpa using notShared) rfl frees.1 frees.2)
    · exact deactivated

/-- An allocation ends with the policy on the page allocated before. -/
theorem allocPolicy_inv {call : AllocCall P O} (inv : PageInv hash s)
    (unwired : ∀ p, FreesPrevious s call p → (s.page p).wireCount = 0#16) :
    PageInv hash (allocPolicy hash s call) := by
  have withLast (u : Resident P O) (lastAlloc : O → BitVec 32) (inv : PageInv hash u) :
      PageInv hash { u with lastAlloc := lastAlloc } :=
    ⟨inv.queues.of_same ⟨fun _ => rfl, fun _ => rfl, rfl, rfl, rfl⟩,
      inv.table.of_same ⟨fun _ => rfl, fun _ => rfl, fun _ => rfl, rfl, rfl, rfl⟩⟩
  rw [allocPolicy]
  apply withLast
  split
  case isFalse => exact inv
  case isTrue sequential =>
    obtain ⟨policy, unmaps, adjacent⟩ := sequential
    cases found : pageLookup hash s call.object (s.lastAlloc call.object) with
    | none => exact inv
    | some last =>
      have tabled := (pageLookup_eq_some inv.table _ _ _).mp found
      refine policyApply_inv inv fun notShared now clean notModified => ?_
      refine unwired last ⟨⟨policy, ?_⟩, ⟨unmaps, notShared⟩, adjacent, tabled, clean, notModified⟩
      rintro deactivates
      rw [if_pos deactivates] at now
      exact Deactivate.noConfusion now

end TableOperations

/-! ### Allocation -/

section Allocation

omit [DecidableEq O] in
theorem resetPage_inv (inv : PageInv hash s) (off : ∀ q, (s.page m).on q = false)
    (unwired : (s.page m).wireCount = 0#16) (untabled : (s.page m).tabled = false) :
    PageInv hash (resetPage s m) := by
  constructor
  · refine inv.queues.of_same ⟨fun p => ?_, fun p => ?_, rfl, rfl, rfl⟩
    · by_cases here : p = m
      · subst here
        funext q
        simp [resetPage, pageTemplate, off]
      · simp [resetPage, here]
    · by_cases here : p = m
      · subst here
        simp [resetPage, pageTemplate, unwired]
      · simp [resetPage, here]
  · refine inv.table.of_untabled (m := m) (fun p other => ?_) untabled ?_ rfl rfl rfl
    · simp [resetPage, other]
    · simp [resetPage, pageTemplate]

omit [DecidableEq O] in
/-- Dequeuing the first free page is taking it off the queue. -/
theorem popFree_eq {rest : List P} (inv : QueuesInv s) (first : s.queue .free = m :: rest) :
    { s with
      page := setFlag s .free m false
      queue := Function.update s.queue .free rest
      count := Function.update s.count .free (s.count .free - 1) } = takeOff s .free m := by
  have flagged : (s.page m).on .free = true := by
    rw [← (inv.holds .free).mem_iff, first]
    exact List.mem_cons_self
  rw [takeOff, if_pos flagged, first, List.erase_cons_head]

theorem pageAlloc_inv {call : AllocCall P O} {mem : P} (inv : PageInv hash s)
    (vacant : Vacant s call.object call.offset)
    (unwired : ∀ p, FreesPrevious s call p → (s.page p).wireCount = 0#16)
    (allocated : pageAlloc hash s call = .page mem t) : PageInv hash t := by
  rw [pageAlloc] at allocated
  split at allocated
  · cases allocated
  rename_i m rest first
  split at allocated
  · cases allocated
  have onFree : (s.page m).on .free = true := by
    rw [← (inv.queues.holds .free).mem_iff, first]
    exact List.mem_cons_self
  rw [popFree_eq inv.queues first] at allocated
  dsimp only at allocated
  -- the page leaves the free queue and the table
  have removed : PageInv hash (pageRemove hash (takeOff s .free m) m) :=
    pageRemove_pageInv (takeOff_pageInv inv)
  have off (q : PageQueue) : ((pageRemove hash (takeOff s .free m) m).page m).on q = false := by
    rw [pageRemove_sameQueues.on, takeOff_on]
    by_cases here : q = .free
    · simp [here]
    · simp only [here, and_false, if_false]
      by_contra flagged
      exact here (inv.queues.exclusive m q .free (by simpa using flagged) onFree)
  have notWired : ((pageRemove hash (takeOff s .free m) m).page m).wireCount = 0#16 := by
    rw [pageRemove_sameQueues.wired, takeOff_wired]
    exact inv.queues.wiredOff m .free onFree
  have untabled : ((pageRemove hash (takeOff s .free m) m).page m).tabled = false := by
    rw [pageRemove_page, if_pos rfl]
  have reset := resetPage_inv removed off notWired untabled
  -- no other page has changed so far
  have others (p : P) (other : p ≠ m) :
      (resetPage (pageRemove hash (takeOff s .free m) m) m).page p = s.page p := by
    rw [resetPage]
    dsimp only
    rw [Function.update_of_ne other, pageRemove_page, if_neg other, takeOff, if_pos onFree]
    simp [setFlag, other]
  have stillVacant : Vacant (resetPage (pageRemove hash (takeOff s .free m) m) m)
      call.object call.offset := by
    intro p tabled
    by_cases here : p = m
    · simp [resetPage, pageTemplate, here] at tabled
    · rw [others p here] at tabled ⊢
      exact vacant p tabled
  cases inserted : pageInsert hash (resetPage (pageRemove hash (takeOff s .free m) m) m) m
      call.object call.offset with
  | none =>
    rw [inserted] at allocated
    cases allocated
  | some u =>
    have entered : PageInv hash u :=
      ⟨reset.queues.of_same (pageInsert_sameQueues inserted),
        pageInsert_inv reset.table stillVacant inserted⟩
    have page := pageInsert_page inserted
    have lastAlloc : u.lastAlloc = s.lastAlloc := by
      rw [pageInsert] at inserted
      split at inserted
      · exact absurd inserted (by simp)
      · rw [← some.inj inserted]
        simp only [resetPage, pageRemove, takeOff]
        split <;> split <;> rfl
    rw [inserted] at allocated
    obtain ⟨-, rfl⟩ := (Allocated.page.injEq _ _ _ _).mp allocated
    refine allocPolicy_inv entered fun p frees => ?_
    by_cases here : p = m
    · rw [page, if_pos here]
      simp [resetPage, pageTemplate]
    have same : u.page p = s.page p := by
      rw [page, if_neg here, others p here]
    rw [same]
    refine unwired p ⟨frees.sequential, frees.unmaps, ?_, ?_, ?_⟩
    · rw [← lastAlloc]
      exact frees.adjacent
    · rw [← lastAlloc, ← same]
      exact frees.tabled
    · rw [← same]
      exact frees.clean

end Allocation

theorem step_inv {op : PageOp P O} (inv : PageInv hash s) (admissible : op.Admissible s)
    (safe : op.Safe s) (stepped : op.apply hash s = some t) : PageInv hash t := by
  cases op with
  | alloc call =>
    simp only [PageOp.apply] at stepped
    split at stepped
    · exact some.inj stepped ▸ inv
    · rename_i mem u allocated
      exact some.inj stepped ▸ pageAlloc_inv inv safe.1 safe.2 allocated
    · exact absurd stepped (by simp)
  | free mem => exact some.inj stepped ▸ pageFree_inv inv safe
  | pageoutFree mem =>
    have notFree : (s.page mem).on .free = false := by
      by_contra flagged
      exact PageQueue.noConfusion
        (inv.queues.exclusive mem .free .inactive (by simpa using flagged) admissible)
    exact some.inj stepped ▸
      pageAddfree_inv inv notFree (inv.queues.wiredOff mem .inactive admissible)
  | wire mem => exact some.inj stepped ▸ pageWire_inv inv safe
  | unwire mem => exact some.inj stepped ▸ pageUnwire_inv inv admissible
  | activate mem => exact pageActivate_inv inv admissible stepped
  | deactivate mem modified =>
    exact some.inj stepped ▸ pageDeactivateAge_inv inv false modified
  | rename mem object offset => exact pageRename_inv inv safe stepped
  | fault mem => exact some.inj stepped ▸ faultTakePage_inv inv

/-- A run of calls that are all safe, from the state after startup, keeps the flags, the queues, the
counts and the table in agreement. -/
theorem pages_consistent (startup : Startup s)
    (run : Relation.ReflTransGen (PageStep hash fun s op => op.Safe s) s t) :
    PagesConsistent hash t := by
  have inv : PageInv hash t := by
    induction run with
    | refl => exact startup.inv
    | tail _ step ih =>
      obtain ⟨op, admissible, safe, stepped⟩ := step
      exact step_inv ih admissible safe stepped
  exact inv.consistent

section Sample

/-- Two pages and one object after startup. -/
def twoPages : Resident (Fin 2) Unit where
  page := fun _ => { pageTemplate () with on := fun q => decide (q = .free) }
  queue := fun q => if q = .free then [⟨0, Nat.two_pos⟩, ⟨1, Nat.one_lt_two⟩] else []
  count := fun q => if q = .free then 2 else 0
  wireCount := 0
  buckets := fun _ => []
  memq := fun _ => []
  residentPageCount := fun _ => 0
  lastAlloc := fun _ => 0#32

theorem twoPages_startup : Startup twoPages where
  free := by decide
  fresh := by decide
  queue := by decide
  count := by decide
  wireCount := rfl
  table := ⟨fun _ => rfl, fun _ => rfl, fun _ => rfl⟩

/-- An allocation in the object, by an unprivileged thread, without memory kept in reserve. -/
def plainAlloc (offset : BitVec 32) (policy : BitVec 16) : AllocCall (Fin 2) Unit where
  object := ()
  offset := offset
  sequentialUnmap := true
  privileged := false
  freeReserved := 0
  pageSize := 0x2000#32
  policy := policy
  shared := false
  modified := fun _ => false

def oneBucket : Unit → BitVec 32 → ℕ := fun _ _ => 0

/-- The two pages after an allocation and a wiring of the page allocated. -/
def wiredPage : Resident (Fin 2) Unit :=
  match pageAlloc oneBucket twoPages (plainAlloc 0#32 0#16) with
  | .page mem s => pageWire s mem
  | _ => twoPages

theorem plainAlloc_safe : (PageOp.alloc (plainAlloc 0#32 0#16)).Safe twoPages := by
  constructor
  · intro p tabled
    exact absurd tabled (by revert p; decide)
  · intro p frees
    exact absurd frees.sequential.1 (by decide)

theorem wiredPage_run (Guard : Resident (Fin 2) Unit → PageOp (Fin 2) Unit → Prop)
    (guarded : ∀ s op, op.Safe s → Guard s op) :
    Relation.ReflTransGen (PageStep oneBucket Guard) twoPages wiredPage := by
  refine .head ⟨.alloc (plainAlloc 0#32 0#16), trivial, guarded _ _ plainAlloc_safe, rfl⟩ ?_
  refine .single ⟨.wire 0, trivial, guarded _ _ ?_, rfl⟩
  show _ ≠ _
  decide

/-- A run of an allocation and a wiring ends in a consistent state with one free and one wired
page. -/
theorem pages_consistent_wired :
    wiredPage.queue .free = [1] ∧ wiredPage.wireCount = 1 ∧ PagesConsistent oneBucket wiredPage :=
  ⟨by decide, by decide, pages_consistent twoPages_startup (wiredPage_run _ fun _ _ safe => safe)⟩

/-- The state after the next page was allocated under the policy that frees behind sequential
access, and the first page unwired. -/
def pageOnTwoQueues : Resident (Fin 2) Unit :=
  match pageAlloc oneBucket wiredPage (plainAlloc 0x2000#32 vmPolicySeqFree) with
  | .page _ s => pageUnwire s ⟨0, Nat.two_pos⟩
  | _ => wiredPage

/-- The policy puts the wired page on the free queue, and unwiring it puts it on the active queue
as well. -/
theorem policy_frees_wired_page :
    Startup twoPages ∧
    Relation.ReflTransGen (PageStep oneBucket fun _ _ => True) twoPages pageOnTwoQueues ∧
    0 ∈ pageOnTwoQueues.queue .free ∧ 0 ∈ pageOnTwoQueues.queue .active ∧
    ¬ PagesConsistent oneBucket pageOnTwoQueues := by
  have onFree : 0 ∈ pageOnTwoQueues.queue .free := by decide
  have onActive : 0 ∈ pageOnTwoQueues.queue .active := by decide
  refine ⟨twoPages_startup, ?_, onFree, onActive, fun consistent => ?_⟩
  · refine (wiredPage_run _ fun _ _ _ => trivial).trans ?_
    refine .head ⟨.alloc (plainAlloc 0x2000#32 vmPolicySeqFree), trivial, trivial, rfl⟩ ?_
    refine .single ⟨.unwire 0, ?_, trivial, rfl⟩
    show _ ≠ _
    decide
  · exact PageQueue.noConfusion (consistent.oneQueue 0 .free .active onFree onActive)

end Sample

end Darwin.Vm
