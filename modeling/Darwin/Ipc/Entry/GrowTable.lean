import Darwin.Ipc.Entry.Contents
import Darwin.Ipc.Table

/-!
# The lock contract of `ipc_entry_grow_table`

`ipc_entry_grow_table` is entered with the space write-locked.  It gives up the lock while it
allocates a table, while it frees the old one, and while it waits for another thread that grows the
table; other threads run then, and the space may die.  Its comment says that the space is returned
locked if the call is successful.  A target that the table has reached already makes it return
success with the space unlocked, and the loop comes to that test again after each growth.

## Main definitions

* `growPass` — one pass of the loop, with what other threads do in its unlocked stretches
* `TargetAhead` — the target is not reached yet

## Main results

* `growPass_kept` — a pass keeps what lookup finds and reaches the target
* `growTable_contract` — the contract holds exactly when every pass has its target ahead
-/

namespace Darwin.Ipc

open Darwin.Ipc.Table

/-- A space with the fields that say whether it lives and whether its table is being grown. -/
structure GrowSpace where
  space : IpcSpace
  active : Bool
  growing : Bool

/-- What happens in a pass while the space is unlocked: whether memory for the table is found, and
what other threads do while the caller waits, while it allocates, and while it frees the old
table. -/
structure GrowPass where
  memory : Bool
  waiting : GrowSpace → GrowSpace
  during : GrowSpace → GrowSpace
  after : GrowSpace → GrowSpace

/-- The result of a call: the code, whether the space is write-locked, and the space. -/
structure GrowResult where
  code : KernReturn
  locked : Bool
  state : GrowSpace

/-- Look for the first size of `target` slots: the position of the size, or nothing where the last
two sizes are met.  `psize` is the size before the one at `its`. -/
def searchTarget (sizes : ℕ → ℕ) (target : ℕ) : (fuel psize its : ℕ) → Option ℕ
  | 0, _, _ => none
  | fuel + 1, psize, its =>
    let size := sizes its
    if psize ≠ size ∧ size < target then searchTarget sizes target fuel size (its + 1)
    else if psize = size then none
    else some its

/-- The choice of a size in `ipc_entry_grow_table`: its position, or the result of the call, which
leaves the space unlocked.  A negative `target` is large here, as the sizes are unsigned. -/
def growSize (sizes : ℕ → ℕ) (s : IpcSpace) (target : BitVec 32) : Except KernReturn ℕ :=
  let osize := sizes (s.tableNext - 1)
  if target ≠ itsSizeNone then
    if target.toNat ≤ osize then .error .success
    else
      match searchTarget sizes target.toNat ipcTableEntriesSize osize s.tableNext with
      | none => .error .noSpace
      | some its => .ok its
  else if osize = sizes s.tableNext then .error .noSpace
  else .ok s.tableNext

/-- One pass of the loop of `ipc_entry_grow_table`: the result of the call, or the space for the
next pass. -/
def growPass (sizes : ℕ → ℕ) (target : BitVec 32) (w : GrowSpace) (pass : GrowPass) :
    GrowResult ⊕ GrowSpace :=
  if w.growing = true then .inl ⟨.success, true, pass.waiting w⟩
  else
    match growSize sizes w.space target with
    | .error code => .inl ⟨code, false, w⟩
    | .ok its =>
      let osize := sizes (w.space.tableNext - 1)
      let size := sizes its
      let nits := its + 1
      let nsize := sizes nits
      let w := { pass.during { w with growing := true } with growing := false }
      if pass.memory = false then .inl ⟨.resourceShortage, false, w⟩
      else if w.active = false then .inl ⟨.success, true, w⟩
      else
        let w := pass.after { w with space := w.space.extendTable osize size nsize nits }
        if w.active = false ∨ w.space.tableNext ≠ nits then .inl ⟨.success, true, w⟩
        else if w.space.treeSmall > 0 ∧ (nsize - size) * 16 < w.space.treeSmall * 32 then .inr w
        else .inl ⟨.success, true, w⟩

/-- `ipc_entry_grow_table`, for as many passes as there are. -/
def growTable (sizes : ℕ → ℕ) (target : BitVec 32) : GrowSpace → List GrowPass → Option GrowResult
  | _, [] => none
  | w, pass :: passes =>
    match growPass sizes target w pass with
    | .inl result => some result
    | .inr w => growTable sizes target w passes

/-- The target is ahead: another thread grows the table, or there is no target, or the table is
smaller. -/
def TargetAhead (sizes : ℕ → ℕ) (target : BitVec 32) (w : GrowSpace) : Prop :=
  w.growing = true ∨ target = itsSizeNone ∨ sizes (w.space.tableNext - 1) < target.toNat

/-- Every pass that the loop makes has its target ahead. -/
def AlwaysAhead (sizes : ℕ → ℕ) (target : BitVec 32) : GrowSpace → List GrowPass → Prop
  | _, [] => True
  | w, pass :: passes => TargetAhead sizes target w ∧
      match growPass sizes target w pass with
      | .inl _ => True
      | .inr w => AlwaysAhead sizes target w passes

/-! ## What other threads may do -/

/-- A space between operations: its entries are placed and its size is one of the array. -/
structure IpcSpace.Settled (sizes : ℕ → ℕ) (s : IpcSpace) : Prop extends s.Placed where
  size : s.tableSize = sizes (s.tableNext - 1)
  next_pos : 0 < s.tableNext
  next_lt : s.tableNext < ipcTableEntriesSize
  pos : 0 < s.tableSize

/-- Other threads leave the space settled and its table as large as it is. -/
def Calm (sizes : ℕ → ℕ) (others : GrowSpace → GrowSpace) : Prop :=
  ∀ w, w.space.Settled sizes → (others w).space.Settled sizes ∧
    (others w).space.tableSize = w.space.tableSize ∧
    (others w).space.tableNext = w.space.tableNext ∧ (others w).growing = w.growing

/-- Other threads leave the entry of a name. -/
def KeepsName (sizes : ℕ → ℕ) (name : ℕ) (others : GrowSpace → GrowSpace) : Prop :=
  ∀ w, w.space.Settled sizes → (others w).space.contents name = w.space.contents name

/-- What `ipc_entry_grow_table` promises: the space is locked exactly on success, and a success of a
space that lives, whose table no other thread grew, means a table of the old size and the target at
least, in which every entry that the other threads kept is kept. -/
def GrowContract (sizes : ℕ → ℕ) (target : BitVec 32) (w : GrowSpace) (passes : List GrowPass) :
    Prop :=
  ∀ result, growTable sizes target w passes = some result →
    (result.locked = true ↔ result.code = .success) ∧
    (result.code = .success → result.state.active = true → w.growing = false →
      (∀ pass ∈ passes, Calm sizes pass.during ∧ Calm sizes pass.after) →
        w.space.tableSize ≤ result.state.space.tableSize ∧
        (target ≠ itsSizeNone → target.toNat ≤ result.state.space.tableSize) ∧
        ∀ name, (∀ pass ∈ passes, KeepsName sizes name pass.during ∧
            KeepsName sizes name pass.after) →
          result.state.space.contents name = w.space.contents name)

section Choice

variable {pageSize : ℕ} {target : BitVec 32} {s : IpcSpace} {its : ℕ}

/-- The search ends at a size of the array that holds the target and differs from the one before. -/
theorem searchTarget_found (page : entryBytes ≤ pageSize) {goal fuel start : ℕ} (pos : 0 < start)
    (mem : start < ipcTableEntriesSize)
    (found : searchTarget (ipcTableEntries pageSize) goal fuel
      (ipcTableEntries pageSize (start - 1)) start = some its) :
    start ≤ its ∧ its + 1 < ipcTableEntriesSize ∧ goal ≤ ipcTableEntries pageSize its := by
  induction fuel generalizing start with
  | zero => cases found
  | succ fuel ih =>
    -- At the last position the size is the one before.
    have stops : start + 1 < ipcTableEntriesSize ∨
        ipcTableEntries pageSize (start - 1) = ipcTableEntries pageSize start := by
      by_cases last : start + 1 < ipcTableEntriesSize
      · exact .inl last
      · have here : start = ipcTableEntriesSize - 1 := by omega
        rw [here]
        exact .inr (entries_last page)
    rw [searchTarget] at found
    split at found
    next further =>
      have more := stops.resolve_right further.1
      obtain ⟨le, rest⟩ := ih (Nat.succ_pos start) more found
      exact ⟨(Nat.le_succ start).trans le, rest⟩
    next stop =>
      split at found
      · cases found
      next differs =>
        cases found
        exact ⟨le_rfl, stops.resolve_right differs, not_lt.mp fun small => stop ⟨differs, small⟩⟩

/-- The chosen size is beyond the current one and holds the target. -/
theorem growSize_chosen (page : entryBytes ≤ pageSize)
    (settled : s.Settled (ipcTableEntries pageSize))
    (chosen : growSize (ipcTableEntries pageSize) s target = .ok its) :
    its + 1 < ipcTableEntriesSize ∧ s.tableSize ≤ ipcTableEntries pageSize its ∧
      (target ≠ itsSizeNone → target.toNat ≤ ipcTableEntries pageSize its) := by
  have larger {its : ℕ} (later : s.tableNext ≤ its) (mem : its + 1 < ipcTableEntriesSize) :
      s.tableSize ≤ ipcTableEntries pageSize its := by
    rw [settled.size]
    exact entries_mono page (by omega) (by omega)
  rw [growSize] at chosen
  split at chosen
  next wanted =>
    split at chosen
    · cases chosen
    split at chosen
    · cases chosen
    next found =>
      cases chosen
      obtain ⟨later, mem, enough⟩ :=
        searchTarget_found page settled.next_pos settled.next_lt found
      exact ⟨mem, larger later mem, fun _ => enough⟩
  next none =>
    split at chosen
    · cases chosen
    next differs =>
      cases chosen
      have mem : s.tableNext + 1 < ipcTableEntriesSize := by
        by_contra last
        have here : s.tableNext = ipcTableEntriesSize - 1 := by
          have := settled.next_lt
          omega
        rw [here] at differs
        exact differs (entries_last page)
      exact ⟨mem, larger le_rfl mem, fun wanted => absurd wanted none⟩

/-- Success at once means that the table has the target size already. -/
theorem growSize_success
    (success : growSize (ipcTableEntries pageSize) s target = .error .success) :
    target ≠ itsSizeNone ∧ target.toNat ≤ ipcTableEntries pageSize (s.tableNext - 1) := by
  rw [growSize] at success
  split at success
  next wanted =>
    split at success
    next reached => exact ⟨wanted, reached⟩
    · split at success <;> cases success
  · split at success <;> cases success

/-- Otherwise the choice fails with another code than success. -/
theorem growSize_ahead {code : KernReturn}
    (failed : growSize (ipcTableEntries pageSize) s target = .error code)
    (ahead : target = itsSizeNone ∨ ipcTableEntries pageSize (s.tableNext - 1) < target.toNat) :
    code ≠ .success := by
  rintro rfl
  obtain ⟨wanted, reached⟩ := growSize_success failed
  rcases ahead with none | ahead
  · exact wanted none
  · exact absurd reached (not_le.mpr ahead)

end Choice

section Pass

variable {pageSize : ℕ} {target : BitVec 32} {w : GrowSpace} {pass : GrowPass}

/-- A pass whose target is reached returns success, and the space unlocked. -/
theorem growPass_reached (reached : ¬ TargetAhead (ipcTableEntries pageSize) target w) :
    growPass (ipcTableEntries pageSize) target w pass = .inl ⟨.success, false, w⟩ := by
  obtain ⟨idle, rest⟩ := not_or.mp reached
  obtain ⟨wanted, small⟩ := not_or.mp rest
  have chosen : growSize (ipcTableEntries pageSize) w.space target = .error .success := by
    rw [growSize, if_pos wanted, if_pos (not_lt.mp small)]
  rw [growPass, if_neg idle, chosen]

/-- A pass with its target ahead that ends the call returns the space locked exactly on success. -/
theorem growPass_locked {result : GrowResult}
    (ahead : TargetAhead (ipcTableEntries pageSize) target w)
    (ends : growPass (ipcTableEntries pageSize) target w pass = .inl result) :
    result.locked = true ↔ result.code = .success := by
  rw [growPass] at ends
  split at ends
  · cases ends
    exact ⟨fun _ => rfl, fun _ => rfl⟩
  next idle =>
    split at ends
    next code failed =>
      cases ends
      have other := growSize_ahead failed (ahead.resolve_left idle)
      exact ⟨fun locked => (by cases locked), fun success => absurd success other⟩
    next its chosen =>
      dsimp only at ends
      split at ends
      · cases ends
        exact ⟨fun locked => (by cases locked), fun success => (by cases success)⟩
      split at ends
      · cases ends
        exact ⟨fun _ => rfl, fun _ => rfl⟩
      split at ends
      · cases ends
        exact ⟨fun _ => rfl, fun _ => rfl⟩
      split at ends
      · cases ends
      · cases ends
        exact ⟨fun _ => rfl, fun _ => rfl⟩

/-- What a pass keeps: the table does not shrink, and lookup finds what it found. -/
structure GrowKept (sizes : ℕ → ℕ) (pass : GrowPass) (w w' : GrowSpace) : Prop where
  size : w.space.tableSize ≤ w'.space.tableSize
  contents : ∀ name, KeepsName sizes name pass.during → KeepsName sizes name pass.after →
    w'.space.contents name = w.space.contents name

variable (page : entryBytes ≤ pageSize)

include page

variable (settled : w.space.Settled (ipcTableEntries pageSize))

include settled

/-- The stretch of a pass from the allocation to the end: the space is settled, of the new size, and
keeps its contents. -/
theorem growPass_grown
    (calmDuring : Calm (ipcTableEntries pageSize) pass.during)
    (calmAfter : Calm (ipcTableEntries pageSize) pass.after) {its : ℕ}
    (chosen : growSize (ipcTableEntries pageSize) w.space target = .ok its)
    {w₁ w₂ : GrowSpace}
    (allocated : w₁ = { pass.during { w with growing := true } with growing := false })
    (freed : w₂ = pass.after { w₁ with
      space := w₁.space.extendTable (ipcTableEntries pageSize (w.space.tableNext - 1))
        (ipcTableEntries pageSize its) (ipcTableEntries pageSize (its + 1)) (its + 1) }) :
    w₂.space.Settled (ipcTableEntries pageSize) ∧ w₂.growing = false ∧
      GrowKept (ipcTableEntries pageSize) pass w w₂ ∧
      (target ≠ itsSizeNone → target.toNat ≤ w₂.space.tableSize) := by
  obtain ⟨mem, larger, enough⟩ := growSize_chosen page settled chosen
  obtain ⟨settled₁, size₁, next₁, -⟩ := calmDuring { w with growing := true } settled
  have space₁ : w₁.space = (pass.during { w with growing := true }).space := by rw [allocated]
  rw [← space₁] at settled₁ size₁ next₁
  have osize : ipcTableEntries pageSize (w.space.tableNext - 1) = w₁.space.tableSize := by
    rw [size₁, settled.size]
  obtain ⟨placed, size, next, contents⟩ := settled₁.toPlaced.extendTable
    (ipcTableEntries pageSize (its + 1)) (its + 1) settled₁.pos
    (size₁ ▸ larger)
  rw [osize] at freed
  generalize w₁.space.extendTable w₁.space.tableSize (ipcTableEntries pageSize its)
    (ipcTableEntries pageSize (its + 1)) (its + 1) = extended at freed placed size next contents
  have settled' : extended.Settled (ipcTableEntries pageSize) := by
    refine ⟨placed, ?_, ?_, ?_, ?_⟩
    · rw [size, next, Nat.add_sub_cancel]
    · rw [next]
      exact Nat.succ_pos its
    · rw [next]
      exact mem
    · rw [size]
      exact settled.pos.trans_le larger
  obtain ⟨settled₂, size₂, -, growing₂⟩ := calmAfter { w₁ with space := extended } settled'
  rw [← freed] at settled₂ size₂ growing₂
  have reached : w₂.space.tableSize = ipcTableEntries pageSize its := size₂.trans size
  refine ⟨settled₂, ?_, ⟨?_, fun name keepsDuring keepsAfter => ?_⟩, fun wanted => ?_⟩
  · rw [growing₂, allocated]
  · rw [reached]
    exact larger
  · have after := keepsAfter { w₁ with space := extended } settled'
    rw [← freed] at after
    rw [after, contents name, space₁]
    exact keepsDuring { w with growing := true } settled
  · rw [reached]
    exact enough wanted

variable (idle : w.growing = false) (calmDuring : Calm (ipcTableEntries pageSize) pass.during)
  (calmAfter : Calm (ipcTableEntries pageSize) pass.after)

include idle calmDuring calmAfter

/-- A pass that ends the call with success, in a space that lives. -/
theorem growPass_ended {result : GrowResult}
    (ends : growPass (ipcTableEntries pageSize) target w pass = .inl result)
    (success : result.code = .success) (lives : result.state.active = true) :
    GrowKept (ipcTableEntries pageSize) pass w result.state ∧
      (target ≠ itsSizeNone → target.toNat ≤ result.state.space.tableSize) := by
  rw [growPass, if_neg (by rw [idle]; exact Bool.false_ne_true)] at ends
  split at ends
  next code failed =>
    cases ends
    obtain rfl : code = .success := success
    refine ⟨⟨le_rfl, fun _ _ _ => rfl⟩, fun _ => ?_⟩
    rw [settled.size]
    exact (growSize_success failed).2
  next its chosen =>
    dsimp only at ends
    split at ends
    · cases ends
      cases success
    split at ends
    next dead =>
      cases ends
      exact absurd (dead.symm.trans lives) Bool.false_ne_true
    have grown := growPass_grown page settled calmDuring calmAfter chosen rfl rfl
    split at ends
    · cases ends
      exact ⟨grown.2.2.1, grown.2.2.2⟩
    split at ends
    · cases ends
    · cases ends
      exact ⟨grown.2.2.1, grown.2.2.2⟩

/-- A pass that leads to another one. -/
theorem growPass_again {w' : GrowSpace}
    (again : growPass (ipcTableEntries pageSize) target w pass = .inr w') :
    w'.space.Settled (ipcTableEntries pageSize) ∧ w'.growing = false ∧
      GrowKept (ipcTableEntries pageSize) pass w w' := by
  rw [growPass, if_neg (by rw [idle]; exact Bool.false_ne_true)] at again
  split at again
  · cases again
  next its chosen =>
    dsimp only at again
    split at again
    · cases again
    split at again
    · cases again
    split at again
    · cases again
    split at again
    · cases again
      have grown := growPass_grown page settled calmDuring calmAfter chosen rfl rfl
      exact ⟨grown.1, grown.2.1, grown.2.2.1⟩
    · cases again

end Pass

/-! ## Whole calls -/

section Call

variable {pageSize : ℕ} {target : BitVec 32} {w : GrowSpace} {passes : List GrowPass}
  {result : GrowResult}

/-- With every target ahead, the call returns the space locked exactly on success. -/
theorem growTable_locked (ahead : AlwaysAhead (ipcTableEntries pageSize) target w passes)
    (returns : growTable (ipcTableEntries pageSize) target w passes = some result) :
    result.locked = true ↔ result.code = .success := by
  induction passes generalizing w with
  | nil => cases returns
  | cons pass passes ih =>
    obtain ⟨here, rest⟩ := ahead
    rw [growTable] at returns
    cases taken : growPass (ipcTableEntries pageSize) target w pass with
    | inl ended =>
      rw [taken] at returns
      cases returns
      exact growPass_locked here taken
    | inr w' =>
      rw [taken] at returns rest
      exact ih rest returns

/-- A pass whose target is reached ends the call with success and the space unlocked. -/
theorem growTable_reached (reached : ¬ AlwaysAhead (ipcTableEntries pageSize) target w passes) :
    ∃ state, growTable (ipcTableEntries pageSize) target w passes =
      some ⟨.success, false, state⟩ := by
  induction passes generalizing w with
  | nil => exact absurd trivial reached
  | cons pass passes ih =>
    rw [growTable]
    by_cases here : TargetAhead (ipcTableEntries pageSize) target w
    · have rest := fun further => reached ⟨here, further⟩
      cases taken : growPass (ipcTableEntries pageSize) target w pass with
      | inl ended =>
        rw [taken] at rest
        exact absurd trivial rest
      | inr w' =>
        rw [taken] at rest
        exact ih rest
    · rw [growPass_reached here]
      exact ⟨w, rfl⟩

/-- A success of a calm call keeps the entries and reaches the target, in however many passes. -/
theorem growTable_kept (page : entryBytes ≤ pageSize)
    (settled : w.space.Settled (ipcTableEntries pageSize)) (idle : w.growing = false)
    (calm : ∀ pass ∈ passes, Calm (ipcTableEntries pageSize) pass.during ∧
      Calm (ipcTableEntries pageSize) pass.after)
    (returns : growTable (ipcTableEntries pageSize) target w passes = some result)
    (success : result.code = .success) (lives : result.state.active = true) :
    w.space.tableSize ≤ result.state.space.tableSize ∧
      (target ≠ itsSizeNone → target.toNat ≤ result.state.space.tableSize) ∧
      ∀ name, (∀ pass ∈ passes, KeepsName (ipcTableEntries pageSize) name pass.during ∧
          KeepsName (ipcTableEntries pageSize) name pass.after) →
        result.state.space.contents name = w.space.contents name := by
  induction passes generalizing w with
  | nil => cases returns
  | cons pass passes ih =>
    obtain ⟨calmDuring, calmAfter⟩ := calm pass List.mem_cons_self
    rw [growTable] at returns
    cases taken : growPass (ipcTableEntries pageSize) target w pass with
    | inl ended =>
      rw [taken] at returns
      cases returns
      obtain ⟨kept, reached⟩ :=
        growPass_ended page settled idle calmDuring calmAfter taken success lives
      exact ⟨kept.size, reached, fun name keeps =>
        kept.contents name (keeps pass List.mem_cons_self).1 (keeps pass List.mem_cons_self).2⟩
    | inr w' =>
      rw [taken] at returns
      obtain ⟨settled', idle', kept⟩ := growPass_again page settled idle calmDuring calmAfter taken
      obtain ⟨size, reached, contents⟩ := ih settled' idle'
        (fun pass later => calm pass (List.mem_cons_of_mem _ later)) returns
      refine ⟨kept.size.trans size, reached, fun name keeps => ?_⟩
      rw [contents name fun pass later => keeps pass (List.mem_cons_of_mem _ later)]
      exact kept.contents name (keeps pass List.mem_cons_self).1 (keeps pass List.mem_cons_self).2

/-- `ipc_entry_grow_table` keeps its contract, in a call of any number of passes with any outcome of
the allocations and any doing of other threads, if and only if no pass of its loop begins with the
target reached. -/
theorem growTable_contract (pageSize : ℕ) (page : entryBytes ≤ pageSize) (target : BitVec 32)
    (w : GrowSpace) (settled : w.space.Settled (ipcTableEntries pageSize))
    (passes : List GrowPass) :
    GrowContract (ipcTableEntries pageSize) target w passes ↔
      AlwaysAhead (ipcTableEntries pageSize) target w passes := by
  constructor
  · intro contract
    by_contra reached
    obtain ⟨state, returns⟩ := growTable_reached reached
    exact absurd ((contract _ returns).1.mpr rfl) Bool.false_ne_true
  · intro ahead result returns
    refine ⟨growTable_locked ahead returns, fun success lives idle calm => ?_⟩
    exact growTable_kept page settled idle calm returns success lives

/-- Without a target, as all callers in the kernel have it, the target is always ahead. -/
theorem alwaysAhead_none (sizes : ℕ → ℕ) (w : GrowSpace) (passes : List GrowPass) :
    AlwaysAhead sizes itsSizeNone w passes := by
  induction passes generalizing w with
  | nil => trivial
  | cons pass passes ih =>
    refine ⟨.inr (.inl rfl), ?_⟩
    split
    · trivial
    · exact ih _

end Call

/-- A new space, with a table of the first size and no entries. -/
def freshGrowSpace : GrowSpace :=
  ⟨⟨fun _ => ⟨ieBitsGenMask, 0, 0⟩, 4, 1, ⟨∅, fun _ => ⟨0#32, 0, 0⟩⟩, 0, 0⟩, true, false⟩

theorem settled_freshGrowSpace : freshGrowSpace.space.Settled (ipcTableEntries 4096) := by
  refine ⟨⟨⟨rfl, ?_⟩, by decide, ?_⟩, by decide +kernel, by decide, by decide, by decide⟩
  · exact fun name inTree => absurd inTree (Finset.notMem_empty name)
  · exact fun name inTree => absurd inTree (Finset.notMem_empty name)

/-- A pass in which memory is found and other threads do nothing. -/
def quietPass : GrowPass := ⟨true, id, id, id⟩

theorem growTable_contract_fresh :
    GrowContract (ipcTableEntries 4096) itsSizeNone freshGrowSpace [quietPass] :=
  (growTable_contract 4096 (by decide) itsSizeNone freshGrowSpace settled_freshGrowSpace
    [quietPass]).mpr (alwaysAhead_none _ _ _)

/-- Asked for the four slots that it has, the call returns success and the space unlocked. -/
theorem growTable_unlocked : freshGrowSpace.space.Settled (ipcTableEntries 4096) ∧
    ¬ GrowContract (ipcTableEntries 4096) 4#32 freshGrowSpace [quietPass] := by
  refine ⟨settled_freshGrowSpace, fun contract => ?_⟩
  have reached : ¬ TargetAhead (ipcTableEntries 4096) 4#32 freshGrowSpace := by
    unfold TargetAhead
    decide +kernel
  have returns : growTable (ipcTableEntries 4096) 4#32 freshGrowSpace [quietPass] =
      some ⟨.success, false, freshGrowSpace⟩ := by
    rw [growTable, growPass_reached reached]
  exact absurd ((contract _ returns).1.mpr rfl) Bool.false_ne_true

end Darwin.Ipc
