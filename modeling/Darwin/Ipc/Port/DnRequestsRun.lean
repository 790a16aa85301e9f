import Darwin.Ipc.Port.DnRequests
import Darwin.Lib.Runs

/-!
# Runs of the dead-name request operations

A run is a sequence of requests, cancellations, the two steps of `ipc_port_dngrow`, and the death of
the port, with any number of callers waiting for memory at a time.  The free list and the requests
that were granted stay right in every run.  A call of `ipc_port_dngrow` that reports success left
the table as it was when its target lies beyond the next size: the new table is chosen several sizes
ahead, and the check after the allocation accepts only the next one.

## Main results

* `FreeListExact.addFree` — new slots on a free list
* `DnState.inv_step` — every step keeps the invariant
* `dnRequests_exact` — a run does what its interface says if and only if no call skips a size
-/

namespace Darwin.Ipc

open List Option RequestPort
open Function (update update_of_ne update_self)
open Darwin.Lib Darwin.Ipc.Table

/-! ## Free lists -/

/-- The slot after a free slot; the list ends with zero. -/
def nextFree (request : ℕ → PortRequest) (index : ℕ) : Option ℕ :=
  if index = 0 then none else some (request index).notify

/-- The free list from `head` has exactly the slots below `size` with a null name. -/
def FreeListExact (request : ℕ → PortRequest) (head size : ℕ) : Prop :=
  ∃ free, Chain (nextFree request) head free 0 ∧ free.Nodup ∧
    ∀ i, i ∈ free ↔ 0 < i ∧ i < size ∧ (request i).name = 0

section FreeList

variable {request : ℕ → PortRequest} {head size i : ℕ} {r : PortRequest}

theorem nextFree_update (other : i ≠ head) :
    nextFree (update request i r) head = nextFree request head := by
  rw [nextFree, nextFree, update_of_ne (Ne.symm other)]

theorem nextFree_self (nonzero : i ≠ 0) :
    nextFree (update request i r) i = some r.notify := by
  rw [nextFree, if_neg nonzero, update_self]

variable (exact : FreeListExact request head size)

include exact

/-- A list with a first slot: the slot is free, and without it the list is exact again. -/
theorem FreeListExact.take (nonempty : head ≠ 0) (named : r.name ≠ 0) :
    (0 < head ∧ head < size ∧ (request head).name = 0) ∧
      FreeListExact (update request head r) (request head).notify size := by
  obtain ⟨free, chain, nodup, members⟩ := exact
  cases free with
  | nil => exact absurd chain nonempty
  | cons first free =>
    obtain ⟨rfl, next, link, rest⟩ := chain
    rw [nextFree, if_neg nonempty] at link
    cases link
    have fresh : head ∉ free := (nodup_cons.mp nodup).1
    have mem := (members head).mp mem_cons_self
    refine ⟨mem, free, ?_, (nodup_cons.mp nodup).2, fun i => ?_⟩
    · refine rest.congr fun p mem => nextFree_update fun same => fresh ?_
      rw [same]
      exact mem
    by_cases here : i = head
    · subst here
      rw [update_self]
      exact ⟨fun mem => absurd mem fresh, fun ⟨_, _, free⟩ => absurd free named⟩
    · rw [update_of_ne here, ← members i, mem_cons]
      exact ⟨.inr, fun mem => mem.resolve_left here⟩

/-- A slot in use goes in front of the list. -/
theorem FreeListExact.put (slot : 0 < i) (mem : i < size) (used : (request i).name ≠ 0) :
    FreeListExact (update request i ⟨head, 0⟩) i size := by
  obtain ⟨free, chain, nodup, members⟩ := exact
  have fresh : i ∉ free := fun mem => used ((members i).mp mem).2.2
  refine ⟨i :: free, .cons (nextFree_self slot.ne') ?_, nodup_cons.mpr ⟨fresh, nodup⟩, fun j => ?_⟩
  · refine chain.congr fun p mem => nextFree_update fun same => fresh ?_
    rw [same]
    exact mem
  rw [mem_cons, members j]
  by_cases here : j = i
  · subst here
    rw [update_self]
    exact ⟨fun _ => ⟨slot, mem, rfl⟩, fun _ => .inl rfl⟩
  · rw [update_of_ne here]
    exact ⟨fun mem => mem.resolve_left here, .inr⟩

/-- The table grows by one slot, which goes in front of the list. -/
theorem FreeListExact.extend (slot : 0 < size) :
    FreeListExact (update request size ⟨head, 0⟩) size (size + 1) := by
  obtain ⟨free, chain, nodup, members⟩ := exact
  have fresh : size ∉ free := fun mem => lt_irrefl _ ((members size).mp mem).2.1
  refine ⟨size :: free, .cons (nextFree_self slot.ne') ?_, nodup_cons.mpr ⟨fresh, nodup⟩,
    fun j => ?_⟩
  · refine chain.congr fun p mem => nextFree_update fun same => fresh ?_
    rw [same]
    exact mem
  rw [mem_cons, members j]
  by_cases here : j = size
  · subst here
    rw [update_self]
    exact ⟨fun _ => ⟨slot, Nat.lt_succ_self _, rfl⟩, fun _ => .inl rfl⟩
  rw [update_of_ne here]
  constructor
  · rintro (same | ⟨pos, below, free⟩)
    · exact absurd same here
    · exact ⟨pos, below.trans (Nat.lt_succ_self _), free⟩
  · rintro ⟨pos, below, free⟩
    exact .inr ⟨pos, by omega, free⟩

omit exact

/-- The loop of `ipc_port_dngrow` puts all new slots on the list. -/
theorem FreeListExact.addFree (exact : FreeListExact request head size) (slot : 0 < size)
    (count : ℕ) :
    FreeListExact (addFree request count size head).1
      (addFree request count size head).2 (size + count) := by
  induction count generalizing request head size with
  | zero => exact exact
  | succ count ih =>
    rw [addFree, show size + (count + 1) = size + 1 + count by omega]
    exact ih (exact.extend slot) (Nat.succ_pos _)

theorem addFree_below (count : ℕ) (below : i < size) :
    (addFree request count size head).1 i = request i := by
  induction count generalizing request head size with
  | zero => rfl
  | succ count ih =>
    rw [addFree, ih (below.trans (Nat.lt_succ_self _)), update_of_ne below.ne]

theorem addFree_name (request : ℕ → PortRequest) (head count : ℕ) (above : size ≤ i)
    (mem : i < size + count) :
    ((addFree request count size head).1 i).name = 0 := by
  induction count generalizing request head size with
  | zero => omega
  | succ count ih =>
    rw [addFree]
    rcases above.eq_or_lt with rfl | later
    · rw [addFree_below count (Nat.lt_succ_self _), update_self]
    · exact ih _ _ later (by omega)

end FreeList

/-! ## The choice of a size -/

section Search

variable {sizes : ℕ → ℕ} {target its fuel : ℕ}

theorem le_searchSize (sizes : ℕ → ℕ) (target fuel its : ℕ) :
    its ≤ searchSize sizes target fuel its := by
  induction fuel generalizing its with
  | zero => exact le_rfl
  | succ fuel ih =>
    rw [searchSize]
    split
    · exact (Nat.le_succ its).trans (ih _)
    · exact le_rfl

/-- The search stays where it is when the first size is large enough or the array has ended. -/
theorem searchSize_here (here : sizes its = 0 ∨ target ≤ sizes its) :
    searchSize sizes target fuel its = its := by
  cases fuel with
  | zero => rfl
  | succ fuel =>
    rw [searchSize, if_neg]
    rintro ⟨used, small⟩
    rcases here with ended | large
    · exact used ended
    · exact absurd small (not_lt.mpr large)

/-- Within an array that ends, the search finds a size that is large enough, or the end. -/
theorem searchSize_found (sizes : ℕ → ℕ) (target its fuel : ℕ)
    (ends : ∀ i, its + fuel ≤ i → sizes i = 0) :
    sizes (searchSize sizes target fuel its) = 0 ∨
      target ≤ sizes (searchSize sizes target fuel its) := by
  induction fuel generalizing its with
  | zero => exact .inl (ends its le_rfl)
  | succ fuel ih =>
    rw [searchSize]
    split
    · exact ih _ fun i later => ends i (by omega)
    next stop =>
      by_cases ended : sizes its = 0
      · exact .inl ended
      · exact .inr (not_lt.mp fun small => stop ⟨ended, small⟩)

end Search

/-! ## Runs -/

/-- A caller of `ipc_port_dngrow` that waits for memory: what it asked for, the table it saw and the
position of the size that it chose.  Of the table the code keeps the address. -/
structure DnGrower where
  target : BitVec 32
  otable : Option RequestTable
  its : ℕ

/-- A port, the callers of `ipc_port_dngrow` that wait for memory, and the requests that were
granted and not cancelled. -/
structure DnState where
  port : RequestPort
  growing : List DnGrower
  granted : ℕ → Option (ℕ × ℕ)

/-- What can happen to a port. -/
inductive DnEvent where
  | request (name soright : ℕ)
  | cancel (name index : ℕ)
  | grow (target : BitVec 32)
  /-- A waiting caller gets a table at an address, or no memory. -/
  | allocated (caller : ℕ) (address : Option ℕ)
  | die

/-- What an operation returns. -/
inductive DnReply where
  | index (result : Except KernReturn ℕ)
  | right (soright : Option ℕ)
  | returned (result : KernReturn)
  | none

namespace DnState

/-- One step: the reply and the state after it. -/
def act (sizes : ℕ → ℕ) (s : DnState) : DnEvent → DnReply × DnState
  | .request name soright =>
    match s.port.dnrequest name soright with
    | (.ok index, port) =>
      (.index (.ok index), { s with
        port := port
        granted := update s.granted index (some (name, soright)) })
    | (.error kr, port) => (.index (.error kr), { s with port := port })
  | .cancel _ index =>
    let result := s.port.dncancel index
    (.right result.1, { s with
      port := result.2
      granted := update s.granted index Option.none })
  | .grow target =>
    match s.port.dngrowSize sizes target with
    | .error kr => (.returned kr, s)
    | .ok its => (.none, { s with growing := ⟨target, s.port.dnrequests, its⟩ :: s.growing })
  | .allocated caller address =>
    match s.growing[caller]? with
    | Option.none => (.none, s)
    | some grower =>
      let growing := s.growing.eraseIdx caller
      match address with
      | Option.none => (.returned .resourceShortage, { s with growing := growing })
      | some address =>
        let result := s.port.dngrowFinish sizes (grower.otable.map RequestTable.address)
          grower.its address
        (.returned result.1, { s with port := result.2, growing := growing })
  | .die => (.none, { s with port := { s.port with active := false } })

/-- The state after a step. -/
def step (sizes : ℕ → ℕ) (s : DnState) (e : DnEvent) : DnState := (s.act sizes e).2

/-- The conditions of the operations: the port is active, names and rights are not null, and only a
granted request is cancelled, under its name. -/
def Legal (s : DnState) : DnEvent → Prop
  | .request name soright => s.port.active = true ∧ name ≠ 0 ∧ soright ≠ 0
  | .cancel name index => s.port.active = true ∧ ∃ soright, s.granted index = some (name, soright)
  | .grow _ => s.port.active = true
  | .allocated caller _ => caller < s.growing.length
  | .die => s.port.active = true

/-- The requests that a port holds are those that were granted, and its free list has exactly the
other slots. -/
structure Correct (sizes : ℕ → ℕ) (s : DnState) : Prop where
  freeList : ∀ table, s.port.dnrequests = some table →
    FreeListExact table.request table.next (sizes table.size)
  granted : ∀ table, s.port.dnrequests = some table → ∀ index name soright,
    s.granted index = some (name, soright) ↔
      0 < index ∧ index < sizes table.size ∧ name ≠ 0 ∧ table.request index = ⟨soright, name⟩
  none : s.port.dnrequests = none → ∀ index, s.granted index = none

/-- The invariant: the table has a size of the array, and each waiting caller chose a size for the
table it saw. -/
structure Inv (sizes : ℕ → ℕ) (s : DnState) : Prop extends Correct sizes s where
  used : ∀ table, s.port.dnrequests = some table → sizes table.size ≠ 0
  chosen : ∀ grower ∈ s.growing,
    dngrowSize sizes ⟨true, grower.otable⟩ grower.target = .ok grower.its

/-- The table is still the one that a caller saw. -/
def Unchanged (otable table : Option RequestTable) : Prop :=
  otable.map (fun t => (t.address, t.size)) = table.map fun t => (t.address, t.size)

/-- The number of slots of a table. -/
def slots (sizes : ℕ → ℕ) (table : Option RequestTable) : ℕ :=
  match table with
  | none => 0
  | some table => sizes table.size

/-- What a step does to the requests: a granted index is its caller's alone, a cancelled request
gives back its own right, and every other request stays at its index. -/
def KeepsRequests (sizes : ℕ → ℕ) (s : DnState) (e : DnEvent) : Prop :=
  match e with
  | .request name soright => ∀ index, (s.act sizes e).1 = .index (.ok index) →
      s.granted index = none ∧
        (s.step sizes e).granted = update s.granted index (some (name, soright))
  | .cancel name index => ∀ soright, s.granted index = some (name, soright) →
      (s.act sizes e).1 = .right (some soright)
  | _ => (s.step sizes e).granted = s.granted

/-- What success of `ipc_port_dngrow` promises of the size, where the port lives and the table was
not changed by others: one slot more at least, and the target. -/
def GrowsEnough (sizes : ℕ → ℕ) (s : DnState) (e : DnEvent) : Prop :=
  match e with
  | .grow target => (s.act sizes e).1 = .returned .success →
      target.toNat ≤ slots sizes (s.step sizes e).port.dnrequests
  | .allocated caller _ => ∀ grower, s.growing[caller]? = some grower →
      (s.act sizes e).1 = .returned .success → s.port.active = true →
      Unchanged grower.otable s.port.dnrequests →
      slots sizes grower.otable + 1 ≤ slots sizes (s.step sizes e).port.dnrequests ∧
        (grower.target ≠ itsSizeNone →
          grower.target.toNat ≤ slots sizes (s.step sizes e).port.dnrequests)
  | _ => True

/-- No size is skipped: a caller that gets memory for a port with a table asked for no more than the
next size, unless the port died or the table was changed in the meantime. -/
def NoSizeSkipped (sizes : ℕ → ℕ) (s : DnState) (e : DnEvent) : Prop :=
  match e with
  | .allocated caller (some _) => ∀ grower table, s.growing[caller]? = some grower →
      grower.otable = some table → s.port.active = true →
      Unchanged grower.otable s.port.dnrequests →
      grower.target = itsSizeNone ∨ grower.target.toNat ≤ sizes (table.size + 1)
  | _ => True

section Steps

variable {pageSize : ℕ} {s : DnState} {name soright its address : ℕ} {table : RequestTable}
  {sizes : ℕ → ℕ} {port : RequestPort} {target : BitVec 32}

theorem act_request_none (sizes : ℕ → ℕ) (none : s.port.dnrequests = none) :
    s.act sizes (.request name soright) = (.index (.error .noSpace), s) := by
  rw [act, dnrequest, none]

theorem act_request_full (sizes : ℕ → ℕ)
    (some : s.port.dnrequests = some table) (full : table.next = 0) :
    s.act sizes (.request name soright) = (.index (.error .noSpace), s) := by
  rw [act, dnrequest, some]
  simp only [full, if_true]

theorem act_request (sizes : ℕ → ℕ) (name soright : ℕ)
    (here : s.port.dnrequests = some table) (free : table.next ≠ 0) :
    s.act sizes (.request name soright) = (.index (.ok table.next), { s with
      port := { s.port with dnrequests := some { table with
        next := (table.request table.next).notify
        request := update table.request table.next ⟨soright, name⟩ } }
      granted := update s.granted table.next (some (name, soright)) }) := by
  rw [act, dnrequest, here]
  simp only [if_neg free]

/-- A request takes a free slot of an exact free list. -/
theorem Inv.request (inv : s.Inv sizes) (named : name ≠ 0) :
    (s.step sizes (.request name soright)).Inv sizes ∧
      s.KeepsRequests sizes (.request name soright) := by
  have idle (reply : s.act sizes (.request name soright) = (.index (.error .noSpace), s)) :
      (s.step sizes (.request name soright)).Inv sizes ∧
        s.KeepsRequests sizes (.request name soright) := by
    refine ⟨by rw [step, reply]; exact inv, fun index ok => ?_⟩
    rw [reply] at ok
    exact absurd (DnReply.index.inj ok) (fun same => by cases same)
  cases here : s.port.dnrequests with
  | none => exact idle (act_request_none sizes here)
  | some table =>
    by_cases full : table.next = 0
    · exact idle (act_request_full sizes here full)
    have taken := act_request sizes name soright here full
    obtain ⟨⟨pos, mem, free⟩, rest⟩ := (inv.freeList table here).take full (r := ⟨soright, name⟩)
      named
    -- The slot was free, so that no request was granted there.
    have unused : s.granted table.next = none := by
      cases granted : s.granted table.next with
      | none => rfl
      | some pair =>
        obtain ⟨-, -, nonzero, eq⟩ := (inv.granted table here table.next pair.1 pair.2).mp granted
        rw [eq] at free
        exact absurd free nonzero
    refine ⟨?_, fun index ok => ?_⟩
    · rw [step, taken]
      refine ⟨⟨?_, ?_, fun none => by cases none⟩, ?_, inv.chosen⟩
      · intro _ new
        cases new
        exact rest
      · intro _ new index name' soright'
        cases new
        by_cases same : index = table.next
        · subst same
          simp only [update_self, some.injEq, Prod.mk.injEq, PortRequest.mk.injEq]
          constructor
          · rintro ⟨rfl, rfl⟩
            exact ⟨pos, mem, named, rfl, rfl⟩
          · rintro ⟨-, -, -, rfl, rfl⟩
            exact ⟨rfl, rfl⟩
        · simp only [update_of_ne same]
          exact inv.granted table here index name' soright'
      · intro _ new
        cases new
        exact inv.used table here
    · rw [taken] at ok
      cases DnReply.index.inj ok
      refine ⟨unused, ?_⟩
      rw [step, taken]

/-- A cancelled request gives back its right, and its slot goes on the free list. -/
theorem Inv.cancel (inv : s.Inv sizes) {index : ℕ}
    (granted : s.granted index = some (name, soright)) :
    (s.step sizes (.cancel name index)).Inv sizes ∧
      s.KeepsRequests sizes (.cancel name index) := by
  cases here : s.port.dnrequests with
  | none => exact absurd (granted.symm.trans (inv.none here index)) (some_ne_none _)
  | some table =>
    obtain ⟨pos, mem, named, eq⟩ := (inv.granted table here index name soright).mp granted
    have used : (table.request index).name ≠ 0 := by
      rw [eq]
      exact named
    refine ⟨?_, fun soright' granted' => ?_⟩
    · rw [step, act, dncancel, here]
      refine ⟨⟨?_, ?_, fun none => by cases none⟩, ?_, inv.chosen⟩
      · intro _ new
        cases new
        exact (inv.freeList table here).put pos mem used
      · intro _ new other name' soright'
        cases new
        by_cases same : other = index
        · subst same
          simp only [update_self, PortRequest.mk.injEq]
          constructor
          · intro none
            cases none
          · rintro ⟨-, -, nonzero, -, zero⟩
            exact absurd zero.symm nonzero
        · simp only [update_of_ne same]
          exact inv.granted table here other name' soright'
      · intro _ new
        cases new
        exact inv.used table here
    · rw [granted] at granted'
      obtain ⟨-, rfl⟩ := Prod.mk.inj (some.inj granted')
      rw [act, dncancel, here]
      simp only [eq]

/-- The exchange of the tables keeps every request at its index; the new slots are free. -/
theorem Correct.exchange (correct : s.Correct sizes)
    (larger : ∀ table, s.port.dnrequests = some table →
      sizes table.size ≠ 0 ∧ sizes table.size < sizes its)
    (two : 2 ≤ sizes its) (growing : List DnGrower) :
    DnState.Correct sizes { s with
      port := { s.port with
        dnrequests := some (newTable sizes s.port.dnrequests its address) }
      growing := growing } := by
  cases here : s.port.dnrequests with
  | none =>
    -- A first table: all slots but the header are free.
    have empty : FreeListExact (fun _ => ⟨0, 0⟩) 0 1 :=
      ⟨[], rfl, nodup_nil, fun i => ⟨fun mem => absurd mem not_mem_nil,
        fun ⟨pos, below, _⟩ => absurd pos (by omega)⟩⟩
    have whole : 1 + (sizes its - 1) = sizes its := by omega
    refine ⟨?_, ?_, fun none => by cases none⟩
    · intro _ new
      cases new
      have exact := empty.addFree one_pos (sizes its - 1)
      rw [whole] at exact
      exact exact
    · intro _ new index name soright
      cases new
      rw [show s.granted index = Option.none from correct.none here index]
      refine ⟨fun none => (by cases none), fun ⟨pos, mem, named, eq⟩ => ?_⟩
      have free := addFree_name (fun _ => ⟨0, 0⟩) 0 (sizes its - 1)
        (show 1 ≤ index from pos) (by rw [whole]; exact mem)
      have same : (addFree (fun _ => ⟨0, 0⟩) (sizes its - 1) 1 0).1 index = _ := eq
      rw [same] at free
      exact absurd free named
  | some table =>
    obtain ⟨nonzero, lt⟩ := larger table here
    have whole : sizes table.size + (sizes its - sizes table.size) = sizes its := by omega
    refine ⟨?_, ?_, fun none => by cases none⟩
    · intro _ new
      cases new
      have exact := (correct.freeList table here).addFree (pos_of_ne_zero nonzero)
        (sizes its - sizes table.size)
      rw [whole] at exact
      exact exact
    · intro _ new index name soright
      cases new
      rw [show s.granted index = some (name, soright) ↔ _ from
        correct.granted table here index name soright]
      change _ ↔ 0 < index ∧ index < sizes its ∧ name ≠ 0 ∧
        (addFree table.request (sizes its - sizes table.size) (sizes table.size)
          table.next).1 index = _
      by_cases old : index < sizes table.size
      · rw [addFree_below _ old]
        exact ⟨fun ⟨pos, _, rest⟩ => ⟨pos, old.trans lt, rest⟩,
          fun ⟨pos, _, rest⟩ => ⟨pos, old, rest⟩⟩
      refine ⟨fun ⟨_, below, _⟩ => absurd below old, fun ⟨_, mem, named, eq⟩ => ?_⟩
      have free := addFree_name table.request table.next
        (sizes its - sizes table.size) (not_lt.mp old) (by rw [whole]; exact mem)
      rw [eq] at free
      exact absurd free named

variable (page : portRequestBytes ≤ pageSize)
  (chosen : port.dngrowSize (ipcTableDnrequests pageSize) target = .ok its)

include page chosen

/-- What a chosen size is: a real one, beyond the table's, and the next one exactly when the target
is no larger than that. -/
theorem chosen_size :
    ipcTableDnrequests pageSize its ≠ 0 ∧ port.nextSize ≤ its ∧
      (target ≠ itsSizeNone → target.toNat ≤ ipcTableDnrequests pageSize its) ∧
      (target = itsSizeNone ∨ target.toNat ≤ ipcTableDnrequests pageSize port.nextSize →
        its = port.nextSize) := by
  rw [dngrowSize] at chosen
  by_cases wanted : target ≠ itsSizeNone
  · rw [if_pos wanted] at chosen
    split at chosen
    · cases chosen
    dsimp only at chosen
    split at chosen
    · cases chosen
    next used =>
      cases chosen
      have found := searchSize_found (ipcTableDnrequests pageSize) target.toNat port.nextSize
        ipcTableDnrequestsSize
        fun i later => dnrequests_end page (by unfold ipcTableDnrequestsSize at later ⊢; omega)
      refine ⟨used, le_searchSize _ _ _ _, fun _ => found.resolve_left used, fun near => ?_⟩
      exact searchSize_here (.inr (near.resolve_left wanted))
  · rw [if_neg wanted] at chosen
    dsimp only at chosen
    split at chosen
    · cases chosen
    next used =>
      cases chosen
      exact ⟨used, le_rfl, fun other => absurd other wanted, fun _ => rfl⟩

/-- A target beyond the next size makes the search go further than the next size. -/
theorem chosen_skips (wanted : target ≠ itsSizeNone)
    (far : ipcTableDnrequests pageSize port.nextSize < target.toNat) : port.nextSize ≠ its := by
  intro same
  have enough := (chosen_size page chosen).2.2.1 wanted
  rw [← same] at enough
  exact absurd enough (not_le.mpr far)

omit page chosen

/-- The first part of `ipc_port_dngrow` leaves the port as it is. -/
theorem Inv.grow (inv : s.Inv (ipcTableDnrequests pageSize)) (target : BitVec 32) :
    (s.step (ipcTableDnrequests pageSize) (.grow target)).Inv (ipcTableDnrequests pageSize) ∧
      s.KeepsRequests (ipcTableDnrequests pageSize) (.grow target) ∧
      s.GrowsEnough (ipcTableDnrequests pageSize) (.grow target) := by
  have same (port : RequestPort) (eq : port.dnrequests = s.port.dnrequests) :
      port.dngrowSize (ipcTableDnrequests pageSize) target =
        s.port.dngrowSize (ipcTableDnrequests pageSize) target := by
    rw [dngrowSize, dngrowSize, nextSize, nextSize,
      eq]
  cases chosen : s.port.dngrowSize (ipcTableDnrequests pageSize) target with
  | error kr =>
    have idle : s.act (ipcTableDnrequests pageSize) (.grow target) = (.returned kr, s) := by
      rw [act, chosen]
    refine ⟨by rw [step, idle]; exact inv, congrArg (DnState.granted ∘ Prod.snd) idle,
      fun success => ?_⟩
    rw [idle] at success
    obtain rfl := DnReply.returned.inj success
    rw [step, idle]
    -- Success at once means that the table has the target size already.
    rw [dngrowSize] at chosen
    split at chosen
    · split at chosen
      next large =>
        obtain ⟨table, here, enough⟩ := (any_eq_true _ _).mp large
        rw [here]
        exact of_decide_eq_true enough
      · dsimp only at chosen
        split at chosen <;> cases chosen
    · dsimp only at chosen
      split at chosen <;> cases chosen
  | ok its =>
    have waits : s.act (ipcTableDnrequests pageSize) (.grow target) =
        (.none, { s with growing := ⟨target, s.port.dnrequests, its⟩ :: s.growing }) := by
      rw [act, chosen]
    refine ⟨?_, congrArg (DnState.granted ∘ Prod.snd) waits, fun success => ?_⟩
    · rw [step, waits]
      refine ⟨⟨inv.freeList, inv.granted, inv.none⟩, inv.used, fun grower mem => ?_⟩
      rcases mem_cons.mp mem with rfl | mem
      · exact (same _ rfl).trans chosen
      · exact inv.chosen grower mem
    · rw [waits] at success
      cases success

theorem act_allocated (sizes : ℕ → ℕ) {caller : ℕ} (address : ℕ) {grower : DnGrower}
    (waits : s.growing[caller]? = some grower) :
    s.act sizes (.allocated caller (some address)) =
      (.returned (s.port.dngrowFinish sizes (grower.otable.map RequestTable.address) grower.its
          address).1,
        { s with
          port := (s.port.dngrowFinish sizes (grower.otable.map RequestTable.address) grower.its
            address).2
          growing := s.growing.eraseIdx caller }) := by
  rw [act, waits]

/-- The second part exchanges the tables or leaves the port as it is. -/
theorem Inv.allocated (page : portRequestBytes ≤ pageSize)
    (inv : s.Inv (ipcTableDnrequests pageSize)) (caller : ℕ) (address : Option ℕ) :
    (s.step (ipcTableDnrequests pageSize) (.allocated caller address)).Inv
        (ipcTableDnrequests pageSize) ∧
      s.KeepsRequests (ipcTableDnrequests pageSize) (.allocated caller address) := by
  have fewer : ∀ grower ∈ s.growing.eraseIdx caller, dngrowSize
      (ipcTableDnrequests pageSize) ⟨true, grower.otable⟩ grower.target = .ok grower.its :=
    fun grower mem => inv.chosen grower (mem_of_mem_eraseIdx mem)
  cases waits : s.growing[caller]? with
  | none =>
    have idle : s.act (ipcTableDnrequests pageSize) (.allocated caller address) = (.none, s) := by
      rw [act, waits]
    exact ⟨by rw [step, idle]; exact inv, congrArg (DnState.granted ∘ Prod.snd) idle⟩
  | some grower =>
    cases address with
    | none =>
      have gaveUp : s.act (ipcTableDnrequests pageSize) (.allocated caller none) =
          (.returned .resourceShortage, { s with growing := s.growing.eraseIdx caller }) := by
        rw [act, waits]
      refine ⟨?_, congrArg (DnState.granted ∘ Prod.snd) gaveUp⟩
      rw [step, gaveUp]
      exact ⟨⟨inv.freeList, inv.granted, inv.none⟩, inv.used, fewer⟩
    | some address =>
      have finished := act_allocated (ipcTableDnrequests pageSize) address waits
      refine ⟨?_, congrArg (DnState.granted ∘ Prod.snd) finished⟩
      rw [step, finished]
      have chosen := chosen_size page (inv.chosen grower (mem_of_getElem? waits))
      rw [dngrowFinish]
      split
      next exchanged =>
        obtain ⟨-, same, next⟩ := exchanged
        refine ⟨inv.toCorrect.exchange (fun table here => ⟨inv.used table here, ?_⟩)
          (two_le_dnrequests page chosen.1) _, ?_, fewer⟩
        · -- A port with a table passes the check with the size after its own only.
          have its : table.size + 1 = grower.its := by
            rcases next with none | next
            · rw [here, none] at same
              cases same
            · rw [nextSize, here] at next
              exact next
          exact dnrequestsSizes_lt page (by omega) chosen.1
        · intro _ new
          cases new
          exact chosen.1
      · exact ⟨⟨inv.freeList, inv.granted, inv.none⟩, inv.used, fewer⟩

/-- With the table still there, the check after the allocation asks for the size after its own. -/
theorem finish_of_unchanged (sizes : ℕ → ℕ) {otable : Option RequestTable}
    (active : s.port.active = true) (unchanged : Unchanged otable s.port.dnrequests)
    (next : otable = none ∨ (⟨true, otable⟩ : RequestPort).nextSize = its) :
    s.port.dngrowFinish sizes (otable.map RequestTable.address) its address =
      (.success, { s.port with
        dnrequests := some (newTable sizes s.port.dnrequests its address) }) := by
  rw [dngrowFinish, if_pos]
  cases otable with
  | none =>
    cases here : s.port.dnrequests with
    | none => exact ⟨active, rfl, .inl rfl⟩
    | some table =>
      rw [Unchanged, here] at unchanged
      cases unchanged
  | some table =>
    cases here : s.port.dnrequests with
    | none =>
      rw [Unchanged, here] at unchanged
      cases unchanged
    | some table' =>
      rw [Unchanged, here] at unchanged
      obtain ⟨address, size⟩ := Prod.mk.inj (some.inj unchanged)
      refine ⟨active, congrArg some address.symm, .inr ?_⟩
      have next := next.resolve_left (some_ne_none table)
      rw [nextSize, here]
      exact (congrArg (· + 1) size.symm).trans next

variable (page : portRequestBytes ≤ pageSize)

include page

variable (inv : s.Inv (ipcTableDnrequests pageSize))

include inv

/-- A success of the second part is worth its name exactly when no size was skipped. -/
theorem growsEnough_allocated_iff (caller : ℕ) (address : Option ℕ) :
    s.GrowsEnough (ipcTableDnrequests pageSize) (.allocated caller address) ↔
      s.NoSizeSkipped (ipcTableDnrequests pageSize) (.allocated caller address) := by
  cases address with
  | none =>
    refine ⟨fun _ => trivial, fun _ grower waits success => ?_⟩
    rw [act, waits] at success
    cases success
  | some address =>
    constructor
    · intro enough grower table waits saw active unchanged
      have chosen := inv.chosen grower (mem_of_getElem? waits)
      by_contra skipped
      obtain ⟨wanted, far⟩ := not_or.mp skipped
      have finished := act_allocated (ipcTableDnrequests pageSize) address waits
      obtain ⟨table', here, size⟩ : ∃ table', s.port.dnrequests = some table' ∧
          table'.size = table.size := by
        rw [Unchanged, saw] at unchanged
        cases here : s.port.dnrequests with
        | none =>
          rw [here] at unchanged
          cases unchanged
        | some table' =>
          rw [here] at unchanged
          exact ⟨table', rfl, (Prod.mk.inj (some.inj unchanged)).2.symm⟩
      rw [saw] at chosen
      have other : table.size + 1 ≠ grower.its := chosen_skips page chosen wanted (not_le.mp far)
      -- The check fails, and the new table is thrown away.
      have thrown : s.port.dngrowFinish (ipcTableDnrequests pageSize)
          (grower.otable.map RequestTable.address) grower.its address = (.success, s.port) := by
        rw [dngrowFinish, if_neg]
        rintro ⟨-, -, none | next⟩
        · rw [saw] at none
          cases none
        · rw [nextSize, here] at next
          exact other ((congrArg (· + 1) size.symm).trans next)
      rw [thrown] at finished
      have promise := (enough grower waits (by rw [finished]) active unchanged).1
      rw [step, finished] at promise
      change slots _ grower.otable + 1 ≤ slots _ s.port.dnrequests at promise
      rw [saw, here, slots, slots, size] at promise
      exact absurd promise (Nat.not_succ_le_self _)
    · intro near grower waits success active unchanged
      have chosen := inv.chosen grower (mem_of_getElem? waits)
      obtain ⟨used, further, target, here⟩ := chosen_size page chosen
      have next : grower.otable = none ∨
          (⟨true, grower.otable⟩ : RequestPort).nextSize = grower.its := by
        cases saw : grower.otable with
        | none => exact .inl rfl
        | some table =>
          rw [saw] at here
          exact .inr (here (near grower table waits saw active unchanged)).symm
      rw [step, act_allocated _ _ waits, finish_of_unchanged _ active unchanged next]
      refine ⟨?_, target⟩
      change slots _ grower.otable + 1 ≤ ipcTableDnrequests pageSize grower.its
      cases saw : grower.otable with
      | none => exact Nat.one_le_iff_ne_zero.mpr used
      | some table =>
        rw [saw] at further
        exact dnrequestsSizes_lt page further used

/-- Every step keeps the invariant and the requests. -/
theorem Inv.act (e : DnEvent) (legal : s.Legal e) :
    (s.step (ipcTableDnrequests pageSize) e).Inv (ipcTableDnrequests pageSize) ∧
      s.KeepsRequests (ipcTableDnrequests pageSize) e := by
  cases e with
  | request name soright => exact inv.request legal.2.1
  | cancel name index =>
    obtain ⟨soright, granted⟩ := legal.2
    exact inv.cancel granted
  | grow target => exact ⟨(inv.grow target).1, (inv.grow target).2.1⟩
  | allocated caller address => exact inv.allocated page caller address
  | die => exact ⟨⟨⟨inv.freeList, inv.granted, inv.none⟩, inv.used, inv.chosen⟩, rfl⟩

/-- In a state with the invariant a success promises the right size exactly when no size is
skipped. -/
theorem growsEnough_iff (e : DnEvent) :
    s.GrowsEnough (ipcTableDnrequests pageSize) e ↔
      s.NoSizeSkipped (ipcTableDnrequests pageSize) e := by
  cases e with
  | grow target => exact ⟨fun _ => trivial, fun _ => (inv.grow target).2.2⟩
  | allocated caller address => exact growsEnough_allocated_iff page inv caller address
  | _ => exact Iff.rfl

end Steps

/-- What the operations on dead-name requests are for, at one step: the requests and the free list
are right before and after it, the step keeps the requests, and success of `ipc_port_dngrow` means
that the table has grown as asked. -/
def Honest (sizes : ℕ → ℕ) (s : DnState) (e : DnEvent) : Prop :=
  s.Correct sizes ∧ (s.step sizes e).Correct sizes ∧ s.KeepsRequests sizes e ∧ s.GrowsEnough sizes e

end DnState

/-- In every run of requests, cancellations and growth on a port whose requests are right, all steps
do what they are for if and only if no call of `ipc_port_dngrow` for a port with a table skips a
size. -/
theorem dnRequests_exact (pageSize : ℕ) (page : portRequestBytes ≤ pageSize) (s : DnState)
    (start : s.Inv (ipcTableDnrequests pageSize)) (events : List DnEvent)
    (legal : EveryStep (DnState.step (ipcTableDnrequests pageSize)) DnState.Legal s events) :
    EveryStep (DnState.step (ipcTableDnrequests pageSize))
        (DnState.Honest (ipcTableDnrequests pageSize)) s events ↔
      EveryStep (DnState.step (ipcTableDnrequests pageSize))
        (DnState.NoSizeSkipped (ipcTableDnrequests pageSize)) s events := by
  refine everyStep_congr start (fun s e inv legal => (inv.act page e legal).1) ?_ legal
  intro s e inv legal
  obtain ⟨after, keeps⟩ := inv.act page e legal
  refine ⟨fun honest => (DnState.growsEnough_iff page inv e).mp honest.2.2.2, fun near => ?_⟩
  exact ⟨inv.toCorrect, after.toCorrect, keeps, (DnState.growsEnough_iff page inv e).mpr near⟩

/-- A port without a table, as `ipc_port_init` leaves it. -/
def freshDnState : DnState := ⟨⟨true, none⟩, [], fun _ => none⟩

theorem inv_freshDnState (sizes : ℕ → ℕ) : freshDnState.Inv sizes :=
  ⟨⟨fun _ table => (by cases table), fun _ table => (by cases table), fun _ _ => rfl⟩,
    fun _ table => (by cases table), fun _ mem => absurd mem not_mem_nil⟩

/-- A new port gets a table, and a request is granted and cancelled. -/
theorem dnRequests_cancelled :
    EveryStep (DnState.step (ipcTableDnrequests 4096)) (DnState.Honest (ipcTableDnrequests 4096))
      freshDnState [.grow itsSizeNone, .allocated 0 (some 1), .request 7 9, .cancel 7 1] := by
  refine (dnRequests_exact 4096 (by decide) freshDnState (inv_freshDnState _)
    [.grow itsSizeNone, .allocated 0 (some 1), .request 7 9, .cancel 7 1]
    ⟨rfl, one_pos, ⟨rfl, by decide, by decide⟩, ⟨rfl, 9, rfl⟩, trivial⟩).mpr
    ⟨trivial, fun grower table waits saw => ?_, trivial, trivial, trivial⟩
  cases waits
  cases saw

/-- The table of a new port grows to its first size, of two slots, a request takes its only free
slot, and a caller that wants eight slots is told that it has them: the next size is four. -/
def skippedRun : List DnEvent :=
  [.grow itsSizeNone, .allocated 0 (some 1), .request 7 9, .grow 8#32, .allocated 0 (some 2)]

/-- The run that skips a size is a legal one, and its last step breaks the promise. -/
theorem dnRequests_skipped :
    EveryStep (DnState.step (ipcTableDnrequests 4096)) DnState.Legal freshDnState skippedRun ∧
      ¬ EveryStep (DnState.step (ipcTableDnrequests 4096))
        (DnState.Honest (ipcTableDnrequests 4096)) freshDnState skippedRun := by
  refine ⟨⟨rfl, one_pos, ⟨rfl, by decide, by decide⟩, rfl, one_pos, trivial⟩, ?_⟩
  rintro ⟨-, -, -, -, ⟨-, -, -, enough⟩, -⟩
  have grown := (enough _ rfl rfl rfl rfl).1
  exact absurd grown (by decide +kernel)

end Darwin.Ipc
