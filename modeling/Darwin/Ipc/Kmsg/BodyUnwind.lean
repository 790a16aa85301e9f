import Darwin.Ipc.Kmsg.BodyBounds

/-!
# Failed copyins of a message body

A ledger of what the copyin of a body takes and releases: rights, port arrays, out-of-line regions
and pieces of the area for physical copies.  Before each descriptor of the second pass, what has
been taken is what cleaning the descriptors done so far would release, so a failure releases all of
it once.  The one exception is the loop that undoes a port array: it tests the port whose right is
missing and not the objects it destroys, and so it destroys null and dead entries too.

## Main results

* `copyinDescriptor_step`: what one descriptor takes, or what its failure leaves
* `copyinBody_releases_iff`: when a failed copyin releases exactly what it took
* `null_destroyed`: a null name before a missing right
-/

namespace Darwin.Ipc.Body

open List Option
open Darwin.Kern.Zalloc (roundPage sub32)

/-! ## The ledger -/

/-- What a record says was taken and released. -/
@[ext] structure Ledger where
  acquired : List (Slot × BitVec 8) := []
  destroyed : List (Slot × BitVec 8) := []
  allocated : List (Word × Word) := []
  freed : List (Word × Word) := []
  moved : List (ℕ × ℕ) := []
  unmoved : List (ℕ × ℕ) := []
  area : List (ℕ × ℕ) := []
  pieces : List (ℕ × ℕ) := []

namespace Ledger

instance : Append Ledger where
  append a b :=
    ⟨a.acquired ++ b.acquired, a.destroyed ++ b.destroyed, a.allocated ++ b.allocated,
      a.freed ++ b.freed, a.moved ++ b.moved, a.unmoved ++ b.unmoved, a.area ++ b.area,
      a.pieces ++ b.pieces⟩

variable (a b c : Ledger)

@[simp] theorem acquired_append : (a ++ b).acquired = a.acquired ++ b.acquired := rfl
@[simp] theorem destroyed_append : (a ++ b).destroyed = a.destroyed ++ b.destroyed := rfl
@[simp] theorem allocated_append : (a ++ b).allocated = a.allocated ++ b.allocated := rfl
@[simp] theorem freed_append : (a ++ b).freed = a.freed ++ b.freed := rfl
@[simp] theorem moved_append : (a ++ b).moved = a.moved ++ b.moved := rfl
@[simp] theorem unmoved_append : (a ++ b).unmoved = a.unmoved ++ b.unmoved := rfl
@[simp] theorem area_append : (a ++ b).area = a.area ++ b.area := rfl
@[simp] theorem pieces_append : (a ++ b).pieces = a.pieces ++ b.pieces := rfl

@[simp] theorem empty_append : ({} : Ledger) ++ a = a := rfl

@[simp] theorem append_empty : a ++ ({} : Ledger) = a := by
  apply Ledger.ext <;> simp

theorem append_assoc : a ++ b ++ c = a ++ (b ++ c) := by
  apply Ledger.ext <;> simp

end Ledger

/-- What one event takes or releases.  A dead right that is copied in need not be released; one that
a space gets is gone from the message as one that is destroyed is. -/
def Event.entry : Event → Ledger
  | .copiedIn object type =>
    { acquired := if valid object then [(.object object, type)] else [] }
  | .objectDestroy object type | .copiedOut object type => { destroyed := [(object, type)] }
  | .kalloc data length => { allocated := [(data, length)] }
  | .kfree data length => { freed := [(data, length)] }
  | .vmMove region size => { moved := [(region.toNat, size.toNat)] }
  | .vmDeallocate .soft address size => { unmoved := [(address, size)] }
  | .vmDeallocate .kernelCopy address size => { pieces := [(address, size)] }
  | .vmAllocate address size => { area := [(address, size)] }
  | _ => {}

/-- The ledger of a record. -/
def ledger : List Event → Ledger
  | [] => {}
  | e :: rest => e.entry ++ ledger rest

@[simp] theorem ledger_nil : ledger [] = {} := rfl

@[simp] theorem ledger_cons (e : Event) (rest : List Event) :
    ledger (e :: rest) = e.entry ++ ledger rest := rfl

@[simp] theorem ledger_append (h more : List Event) :
    ledger (h ++ more) = ledger h ++ ledger more := by
  induction h with
  | nil => rfl
  | cons e rest ih => rw [cons_append, ledger_cons, ih, ledger_cons, Ledger.append_assoc]

@[simp] theorem ledger_nil_if {p : Prop} [Decidable p] (h h' : List Event) :
    ledger (if p then h else h') = if p then ledger h else ledger h' := by
  split <;> rfl

/-! ## Port arrays -/

section Arrays

/-- At the place `j` of a port array there is a valid port without a right. -/
def MissingAt (right : ℕ → Option Word) (objects : List Slot) (j : ℕ) : Prop :=
  ∃ port, objects[j]? = some port ∧ valid port.word ∧ right j = none

/-- The place `k` of a port array is null or dead, or comes in as that. -/
def InvalidAt (right : ℕ → Option Word) (objects : List Slot) (k : ℕ) : Prop :=
  ∃ port, objects[k]? = some port ∧
    (¬ valid port.word ∨ ∃ object, right k = some object ∧ ¬ valid object)

/-- The first missing right of a port array comes after a null or dead entry. -/
def PastInvalid (right : ℕ → Option Word) (objects : List Slot) : Prop :=
  ∃ j k, k < j ∧ MissingAt right objects j ∧ (∀ l < j, ¬ MissingAt right objects l) ∧
    InvalidAt right objects k

/-- What the ports before the first missing right come in as. -/
def beforeMissing (right : ℕ → Option Word) : List Slot → Option (List Slot)
  | [] => none
  | port :: rest =>
    if ¬ valid port.word then (beforeMissing (fun j => right (j + 1)) rest).map (port :: ·)
    else
      match right 0 with
      | none => some []
      | some object =>
        (beforeMissing (fun j => right (j + 1)) rest).map (.object object :: ·)

variable {right : ℕ → Option Word} {port : Slot} {rest objects : List Slot}

theorem missingAt_zero : MissingAt right (port :: rest) 0 ↔ valid port.word ∧ right 0 = none := by
  constructor
  · rintro ⟨port', same, found⟩
    rwa [some.inj same]
  · exact fun found => ⟨port, rfl, found⟩

theorem pastInvalid_cons (present : ¬ MissingAt right (port :: rest) 0) :
    PastInvalid right (port :: rest) ↔
      (∃ j, MissingAt (fun j => right (j + 1)) rest j) ∧ InvalidAt right (port :: rest) 0 ∨
        PastInvalid (fun j => right (j + 1)) rest := by
  constructor
  · rintro ⟨j, k, less, missing, first, invalid⟩
    cases j with
    | zero => exact absurd missing present
    | succ j =>
      cases k with
      | zero => exact .inl ⟨⟨j, missing⟩, invalid⟩
      | succ k =>
        exact .inr ⟨j, k, Nat.lt_of_succ_lt_succ less, missing,
          fun l below => first (l + 1) (Nat.succ_lt_succ below), invalid⟩
  · rintro (⟨some', invalid⟩ | ⟨j, k, less, missing, first, invalid⟩)
    · classical
      refine ⟨Nat.find some' + 1, 0, Nat.succ_pos _, Nat.find_spec some', fun l below => ?_, invalid⟩
      cases l with
      | zero => exact present
      | succ l => exact Nat.find_min some' (Nat.lt_of_succ_lt_succ below)
    · refine ⟨j + 1, k + 1, Nat.succ_lt_succ less, missing, fun l below => ?_, invalid⟩
      cases l with
      | zero => exact present
      | succ l => exact first l (Nat.lt_of_succ_lt_succ below)

theorem beforeMissing_eq_none (right : ℕ → Option Word) (objects : List Slot) :
    beforeMissing right objects = none ↔ ∀ j, ¬ MissingAt right objects j := by
  induction objects generalizing right with
  | nil => exact ⟨fun _ j ⟨port, same, _⟩ => (by cases same), fun _ => rfl⟩
  | cons port rest ih =>
    have tail : (∀ j, ¬ MissingAt right (port :: rest) j) ↔ ¬ MissingAt right (port :: rest) 0 ∧
        ∀ j, ¬ MissingAt (fun j => right (j + 1)) rest j :=
      ⟨fun all => ⟨all 0, fun j => all (j + 1)⟩, fun both j => by
        cases j with
        | zero => exact both.1
        | succ j => exact both.2 j⟩
    rw [tail, missingAt_zero, beforeMissing]
    split
    · rw [map_eq_none_iff, ih]
      simp_all
    cases found : right 0 with
    | none => simp_all
    | some object =>
      simp only [map_eq_none_iff, ih]
      simp

theorem pastInvalid_iff (right : ℕ → Option Word) (objects : List Slot) :
    PastInvalid right objects ↔
      ∃ slots, beforeMissing right objects = some slots ∧ ∃ s ∈ slots, ¬ valid s.word := by
  induction objects generalizing right with
  | nil =>
    constructor
    · rintro ⟨j, k, -, ⟨port, same, -⟩, -⟩
      cases same
    · rintro ⟨slots, same, -⟩
      cases same
  | cons port rest ih =>
    have exists_iff : (∃ j, MissingAt (fun j => right (j + 1)) rest j) ↔
        ∃ slots, beforeMissing (fun j => right (j + 1)) rest = some slots := by
      rw [← ne_none_iff_exists', ne_eq, beforeMissing_eq_none]
      simp
    rw [beforeMissing]
    by_cases good : valid port.word = true
    · rw [if_neg (not_not.mpr good)]
      cases found : right 0 with
      | none =>
        constructor
        · rintro ⟨j, k, less, -, first, -⟩
          exact absurd (missingAt_zero.mpr ⟨good, found⟩) (first 0 (Nat.zero_lt_of_lt less))
        · rintro ⟨slots, same, s, mem, -⟩
          rw [← some.inj same] at mem
          cases mem
      | some object =>
        have present : ¬ MissingAt right (port :: rest) 0 := by
          rw [missingAt_zero, found]
          simp
        have zero : InvalidAt right (port :: rest) 0 ↔ ¬ valid object := by
          simp [InvalidAt, good, found]
        rw [pastInvalid_cons present, ih, exists_iff, zero]
        simp only [map_eq_some_iff, Bool.not_eq_true]
        constructor
        · rintro (⟨⟨slots, same⟩, bad⟩ | ⟨slots, same, s, mem, bad⟩)
          · exact ⟨_, ⟨slots, same, rfl⟩, _, mem_cons_self, bad⟩
          · exact ⟨_, ⟨slots, same, rfl⟩, s, mem_cons_of_mem _ mem, bad⟩
        rintro ⟨-, ⟨slots, same, rfl⟩, s, mem, bad⟩
        rcases mem_cons.mp mem with rfl | mem
        · exact .inl ⟨⟨slots, same⟩, bad⟩
        · exact .inr ⟨slots, same, s, mem, bad⟩
    · have present : ¬ MissingAt right (port :: rest) 0 := by
        rw [missingAt_zero]
        exact fun both => good both.1
      have zero : InvalidAt right (port :: rest) 0 := ⟨port, rfl, .inl good⟩
      rw [if_pos good, pastInvalid_cons present, ih, exists_iff]
      simp only [map_eq_some_iff, zero, and_true]
      constructor
      · rintro (⟨slots, same⟩ | ⟨slots, same, s, mem, bad⟩)
        · exact ⟨_, ⟨slots, same, rfl⟩, _, mem_cons_self, good⟩
        · exact ⟨_, ⟨slots, same, rfl⟩, s, mem_cons_of_mem _ mem, bad⟩
      · rintro ⟨-, ⟨slots, same, rfl⟩, -⟩
        exact .inl ⟨slots, same⟩

/-- The rights among the slots of a port array. -/
def rights (type : BitVec 8) (slots : List Slot) : List (Slot × BitVec 8) :=
  (slots.filter fun s => valid s.word).map fun s => (s, type)

@[simp] theorem rights_append (type : BitVec 8) (slots slots' : List Slot) :
    rights type (slots ++ slots') = rights type slots ++ rights type slots' := by
  simp [rights]

@[simp] theorem ledger_destroyValid (type : BitVec 8) (slots : List Slot) :
    ledger (slots.flatMap (destroyValid type)) = { destroyed := rights type slots } := by
  induction slots with
  | nil => rfl
  | cons s rest ih =>
    rw [flatMap_cons, ledger_append, ih, destroyValid]
    by_cases good : valid s.word = true
    · simp only [good, if_true, ledger_cons, ledger_nil, Event.entry, rights, filter_cons,
        map_cons, Ledger.append_empty]
      rfl
    · simp [good, rights]

theorem ledger_unwind {port : Word} (good : valid port) (type : BitVec 8) (copied : List Slot) :
    ledger (unwind port type copied) = { destroyed := copied.map fun s => (s, type) } := by
  induction copied with
  | nil => rfl
  | cons s rest ih =>
    rw [unwind, flatMap_cons, if_neg (not_not.mpr good), ledger_append]
    rw [unwind] at ih
    rw [ih]
    rfl

/-- The slots of a port array that are null or dead. -/
def invalids (type : BitVec 8) (slots : List Slot) : List (Slot × BitVec 8) :=
  (slots.filter fun s => !valid s.word).map fun s => (s, type)

theorem rights_invalids (type : BitVec 8) (slots : List Slot) :
    (slots.map fun s => (s, type)).Perm (rights type slots ++ invalids type slots) := by
  rw [rights, invalids, ← map_append]
  exact (filter_append_perm _ slots).symm.map _

theorem invalids_ne_nil {type : BitVec 8} {slots : List Slot} :
    invalids type slots ≠ [] ↔ ∃ s ∈ slots, ¬ valid s.word := by
  simp [invalids, filter_eq_nil_iff]

/-- The records of a loop over a port array. -/
theorem copyinObjects_ledger (o : Outcomes) (i : ℕ) (name : BitVec 8) (length : Word)
    (copied : List Slot) (circular : Bool) (history : List Event) (objects : List Slot) :
    (∀ c, copyinObjects o i name length copied circular history objects = .ok c →
      beforeMissing (fun j => o.right i (copied.length + j)) objects = none ∧
        ∃ slots more, slots.length = objects.length ∧ c.1 = copied ++ slots ∧
          c.2.2 = history ++ more ∧ ledger more = { acquired := rights (copyinType name) slots }) ∧
    ∀ h, copyinObjects o i name length copied circular history objects = .error h →
      ∃ slots more, beforeMissing (fun j => o.right i (copied.length + j)) objects = some slots ∧
        h = history ++ more ∧ ledger more =
            { acquired := rights (copyinType name) slots
              destroyed := (copied ++ slots).map fun s => (s, copyinType name) } := by
  induction objects generalizing copied circular history with
  | nil =>
    refine ⟨fun c same => ?_, by rintro _ ⟨⟩⟩
    rw [← Except.ok.inj same]
    exact ⟨rfl, [], [], rfl, (append_nil _).symm, (append_nil _).symm, rfl⟩
  | cons port rest ih =>
    have shift : ∀ s : Slot, (fun j => o.right i ((copied ++ [s]).length + j)) =
        fun j => o.right i (copied.length + (j + 1)) := by
      intro s
      funext j
      rw [length_append, length_singleton]
      congr 1
      omega
    rw [copyinObjects, beforeMissing]
    by_cases good : valid port.word = true
    · rw [if_neg (not_not.mpr good), if_neg (not_not.mpr good), add_zero]
      cases found : o.right i copied.length with
      | none =>
        refine ⟨by rintro _ ⟨⟩, fun h same => ?_⟩
        rw [← Except.error.inj same]
        refine ⟨[], _, rfl, List.append_assoc _ _ _, ?_⟩
        rw [ledger_append, ledger_unwind good, append_nil]
        rfl
      | some object =>
        obtain ⟨copying, failing⟩ := ih (copied ++ [.object object])
          (circular || copyinType name == machMsgTypeMoveReceive && o.circular i copied.length)
          (history ++ [.index copied.length length] ++ [.copiedIn object (copyinType name)])
        rw [shift] at copying failing
        have entry : ledger [.index copied.length length, .copiedIn object (copyinType name)] =
            { acquired := rights (copyinType name) [.object object] } := by
          by_cases live : valid object = true <;> simp [Event.entry, rights, live, Slot.word]
        refine ⟨fun c same => ?_, fun h same => ?_⟩
        · obtain ⟨none', slots, more, count, slots', more', entries⟩ := copying c same
          refine ⟨by rw [none']; rfl, .object object :: slots,
            [.index copied.length length, .copiedIn object (copyinType name)] ++ more,
            congrArg (· + 1) count, ?_, ?_, ?_⟩
          · rw [slots', List.append_assoc, singleton_append]
          · rw [more']
            simp only [List.append_assoc, cons_append, nil_append]
          · rw [ledger_append, entry, entries]
            exact congrArg (fun a => ({ acquired := a } : Ledger))
              (rights_append _ [.object object] slots).symm
        · obtain ⟨slots, more, some', more', entries⟩ := failing h same
          refine ⟨.object object :: slots,
            [.index copied.length length, .copiedIn object (copyinType name)] ++ more,
            by rw [some']; rfl, ?_, ?_⟩
          · rw [more']
            simp only [List.append_assoc, cons_append, nil_append]
          · rw [ledger_append, entry, entries, List.append_assoc, singleton_append]
            exact congrArg (fun a => ({ acquired := a, destroyed := _ } : Ledger))
              (rights_append _ [.object object] slots).symm
    · rw [if_pos good, if_pos good]
      obtain ⟨copying, failing⟩ := ih (copied ++ [port]) circular
        (history ++ [.index copied.length length])
      rw [shift] at copying failing
      have none' : rights (copyinType name) (port :: []) = [] := by simp [rights, good]
      have skip : ∀ slots, rights (copyinType name) (port :: slots) =
          rights (copyinType name) slots := by
        intro slots
        rw [← singleton_append, rights_append, none', nil_append]
      refine ⟨fun c same => ?_, fun h same => ?_⟩
      · obtain ⟨none', slots, more, count, slots', more', entries⟩ := copying c same
        refine ⟨by rw [none']; rfl, port :: slots, .index copied.length length :: more,
          congrArg (· + 1) count, ?_, ?_, ?_⟩
        · rw [slots', List.append_assoc, singleton_append]
        · rw [more', List.append_assoc, singleton_append]
        · rw [ledger_cons, entries, skip]
          rfl
      · obtain ⟨slots, more, some', more', entries⟩ := failing h same
        refine ⟨port :: slots, .index copied.length length :: more, by rw [some']; rfl, ?_, ?_⟩
        · rw [more', List.append_assoc, singleton_append]
        · rw [ledger_cons, entries, skip, List.append_assoc, singleton_append]
          rfl

end Arrays

/-! ## One descriptor -/

section Descriptors

/-- A descriptor that the second pass can copy in as the `i`-th. -/
def Copyable (o : Outcomes) (i : ℕ) : Descriptor → Prop
  | .port name disposition => portAny disposition ∧ (valid name.word → o.right i 0 ≠ none)
  | .outOfLine _ size deallocate copy =>
    size = 0#32 ∨ (copy = machMsgPhysicalCopy ∧ deallocate = false → o.copyin i) ∧ o.vmMove i ≠ none
  | .oolPorts _ _ disposition objects =>
    objects = [] ∨ o.kalloc i ≠ none ∧ o.copyinmap i ∧ portAny disposition ∧
      ∀ j, ¬ MissingAt (o.right i) objects j
  | .other _ => False

/-- The `i`-th descriptor is a port array that is there, in which the first missing right comes
after a null or dead entry. -/
def Unwinds (o : Outcomes) (i : ℕ) : Descriptor → Prop
  | .oolPorts _ _ disposition objects =>
    o.kalloc i ≠ none ∧ o.copyinmap i ∧ portAny disposition ∧ PastInvalid (o.right i) objects
  | _ => False

/-- The size of the piece that a descriptor takes of the area for physical copies. -/
def pieceOf : Descriptor → Option ℕ
  | .outOfLine _ size deallocate copy =>
    if size ≠ 0#32 ∧ copy = machMsgPhysicalCopy ∧ deallocate = false then some size.toNat
    else none
  | _ => none

/-- What copying a descriptor in takes: what cleaning it releases, and its piece of the area. -/
def taken (d : Descriptor) (paddr : ℕ) (piece : Option ℕ) : Ledger where
  acquired := (ledger (cleanDescriptor d)).destroyed
  allocated := (ledger (cleanDescriptor d)).freed
  moved := (ledger (cleanDescriptor d)).unmoved
  pieces := (piece.map fun size => (paddr, size)).toList

variable {o : Outcomes} {page i : ℕ} {st st' : Copied} {d : Descriptor}

theorem arrayLength_eq_zero {objects : List Slot} (small : 4 * objects.length < 2 ^ 32) :
    arrayLength objects.length = 0#32 ↔ objects = [] := by
  rw [arrayLength, ← BitVec.toNat_inj, BitVec.toNat_ofNat, BitVec.toNat_ofNat, Nat.mod_eq_of_lt small,
    ← length_eq_zero_iff]
  omega

/-- What a success leaves: the descriptor was copyable, its cleaning will release what was taken,
and the area has lost its piece. -/
structure Step (o : Outcomes) (page i : ℕ) (st : Copied) (d : Descriptor) (st' : Copied) : Prop where
  copyable : Copyable o i d
  orderly : ¬ Unwinds o i d
  paddr : st'.paddr = match pieceOf d with
    | none => st.paddr
    | some size => (st.paddr + roundPage page size) % 2 ^ 32
  spaceNeeded : st'.spaceNeeded = match pieceOf d with
    | none => st.spaceNeeded
    | some size => sub32 st.spaceNeeded (roundPage page size)
  entry : ∃ d' more, st'.done = st.done ++ [d'] ∧ st'.history = st.history ++ more ∧
    ledger more = taken d' st.paddr (pieceOf d)

theorem copyinDescriptor_step (small : SmallCount d)
    (copied : copyinDescriptor o page i st d = .ok st') : Step o page i st d st' := by
  cases d with
  | port name disposition =>
    rw [copyinDescriptor] at copied
    split at copied
    · cases copied
    rename_i any
    rw [not_not] at any
    split at copied
    · rename_i bad
      cases copied
      refine ⟨⟨any, fun good => absurd good bad⟩, id, rfl, rfl, _, [], rfl, (append_nil _).symm, ?_⟩
      simp [taken, cleanDescriptor, destroyValid, bad, pieceOf]
    · cases found : o.right i 0 with
      | none => rw [found] at copied; cases copied
      | some object =>
        rw [found] at copied
        cases copied
        refine ⟨⟨any, fun _ => by rw [found]; simp⟩, id, rfl, rfl, _, _, rfl, rfl, ?_⟩
        by_cases live : valid object = true <;>
          simp [taken, cleanDescriptor, destroyValid, live, pieceOf, Event.entry, Slot.word]
  | outOfLine address size deallocate copy =>
    rw [copyinDescriptor] at copied
    split at copied
    · rename_i empty
      cases copied
      refine ⟨.inl empty, id, ?_, ?_, _, [], rfl, (append_nil _).symm, ?_⟩ <;>
        simp [taken, cleanDescriptor, pieceOf, empty]
    · rename_i nonempty
      split at copied
      · -- a physical copy takes its piece of the area
        rename_i physical
        have piece : pieceOf (.outOfLine address size deallocate copy) = some size.toNat :=
          if_pos ⟨nonempty, physical⟩
        split at copied
        · cases copied
        rename_i readable
        cases moved : o.vmMove i with
        | none => rw [moved] at copied; cases copied
        | some region =>
          rw [moved] at copied
          cases copied
          refine ⟨.inr ⟨fun _ => not_not.mp readable, by rw [moved]; simp⟩, id, ?_, ?_, _, _, rfl,
            rfl, ?_⟩
          · rw [piece]
          · rw [piece]
          · rw [piece]
            simp [taken, cleanDescriptor, nonempty, Event.entry]
            rfl
      · rename_i virtual
        have piece : pieceOf (.outOfLine address size deallocate copy) = none :=
          if_neg fun both => virtual both.2
        cases moved : o.vmMove i with
        | none => rw [moved] at copied; cases copied
        | some region =>
          rw [moved] at copied
          cases copied
          refine ⟨.inr ⟨fun both => absurd both virtual, by rw [moved]; simp⟩, id, ?_, ?_, _, _, rfl,
            List.append_assoc _ _ _, ?_⟩
          · rw [piece]
          · rw [piece]
          · rw [piece]
            cases deallocate <;> simp [taken, cleanDescriptor, nonempty, Event.entry]
  | oolPorts address deallocate disposition objects =>
    rw [copyinDescriptor] at copied
    split at copied
    · rename_i empty
      rw [arrayLength_eq_zero small] at empty
      cases copied
      subst empty
      refine ⟨.inl rfl, ?_, rfl, rfl, _, _, rfl, rfl, ?_⟩
      · rintro ⟨-, -, -, j, k, -, ⟨port, same, -⟩, -⟩
        cases same
      · rfl
    · rename_i nonempty
      rw [arrayLength_eq_zero small] at nonempty
      cases data : o.kalloc i with
      | none => rw [data] at copied; cases copied
      | some address' =>
        rw [data] at copied
        dsimp only at copied
        split at copied
        · cases copied
        rename_i readable
        split at copied
        · cases copied
        rename_i any
        split at copied
        · cases copied
        rename_i slots circular history copying
        cases copied
        obtain ⟨none', slots', more, count, same, more', entries⟩ :=
          (copyinObjects_ledger _ _ _ _ _ _ _ _).1 _ copying
        simp only [length_nil, zero_add, nil_append] at none' same
        -- the loop ended, so no right of the array was missing
        have present := (beforeMissing_eq_none _ _).mp none'
        subst same
        refine ⟨.inr ⟨by rw [data]; simp, not_not.mp readable, not_not.mp any, present⟩, ?_,
          rfl, rfl, _, [.arrayLength objects.length (arrayLength objects.length),
            .kalloc address' (arrayLength objects.length)] ++
              ((if deallocate then
                [.vmDeallocate .user address.toNat (arrayLength objects.length).toNat]
              else []) ++ more), rfl, ?_, ?_⟩
        · rintro ⟨-, -, -, j, k, -, missing, -⟩
          exact present j missing
        · dsimp only at more' ⊢
          rw [more']
          simp only [List.append_assoc, cons_append, nil_append]
        have some' : slots.length ≠ 0 := by
          rw [count]
          exact fun zero => nonempty (length_eq_zero_iff.mp zero)
        rw [ledger_append, ledger_append, entries, taken, cleanDescriptor, if_neg some', count]
        cases deallocate <;> simp [Event.entry, pieceOf] <;> rfl
  | other type => cases copied

/-- What a failure leaves: what it took of the descriptor is released again, and of rights that are
null or dead something is destroyed besides only where a port array is undone past them. -/
structure Failure (o : Outcomes) (i : ℕ) (st : Copied) (d : Descriptor) (code : MachMsgReturn)
    (history : List Event) : Prop where
  uncopyable : ¬ Copyable o i d
  code : code ≠ machMsgSuccess
  entry : ∃ more held extra destroyed arrays, history = st.history ++ more ∧ ledger more =
      { acquired := held, destroyed := destroyed, allocated := arrays, freed := arrays } ∧
    destroyed.Perm (held ++ extra) ∧ (extra ≠ [] ↔ Unwinds o i d)

variable {code : MachMsgReturn}

/-- A failure that takes nothing but an array, which it frees. -/
theorem failure_of_ledger {more : List Event} {arrays : List (Word × Word)}
    (uncopyable : ¬ Copyable o i d) (error : code ≠ machMsgSuccess)
    (entry : ledger more = { allocated := arrays, freed := arrays }) (orderly : ¬ Unwinds o i d) :
    Failure o i st d code (st.history ++ more) :=
  ⟨uncopyable, error, more, [], [], [], arrays, rfl, entry, List.Perm.refl _,
    fun some' => absurd rfl some', fun unwinds => absurd unwinds orderly⟩

theorem failure_of_nothing (uncopyable : ¬ Copyable o i d)
    (error : code ≠ machMsgSuccess) (orderly : ¬ Unwinds o i d) :
    Failure o i st d code st.history := by
  have nothing : ledger [] = { allocated := [], freed := [] } := rfl
  have failure : Failure o i st d code (st.history ++ []) :=
    failure_of_ledger uncopyable error nothing orderly
  rwa [append_nil] at failure

theorem copyinDescriptor_failure (small : SmallCount d)
    {history : List Event} (failed : copyinDescriptor o page i st d = .error (code, history)) :
    Failure o i st d code history := by
  cases d with
  | port name disposition =>
    rw [copyinDescriptor] at failed
    split at failed
    · rename_i none'
      cases failed
      exact failure_of_nothing (fun able => none' able.1) (by decide) id
    split at failed
    · cases failed
    rename_i good
    cases found : o.right i 0 with
    | none =>
      rw [found] at failed
      cases failed
      exact failure_of_nothing (fun able => able.2 (not_not.mp good) found) (by decide) id
    | some object => rw [found] at failed; cases failed
  | outOfLine address size deallocate copy =>
    rw [copyinDescriptor] at failed
    split at failed
    · cases failed
    rename_i nonempty
    split at failed
    · rename_i physical
      split at failed
      · rename_i unreadable
        cases failed
        refine failure_of_nothing (fun able => ?_) (by decide) id
        exact unreadable ((able.resolve_left nonempty).1 physical)
      · cases moved : o.vmMove i with
        | none =>
          rw [moved] at failed
          cases failed
          refine failure_of_nothing (fun able => ?_) (by decide) id
          exact (able.resolve_left nonempty).2 moved
        | some region => rw [moved] at failed; cases failed
    · cases moved : o.vmMove i with
      | none =>
        rw [moved] at failed
        cases failed
        refine failure_of_nothing (fun able => ?_) (by decide) id
        exact (able.resolve_left nonempty).2 moved
      | some region => rw [moved] at failed; cases failed
  | oolPorts address deallocate disposition objects =>
    rw [copyinDescriptor] at failed
    split at failed
    · cases failed
    rename_i nonempty
    rw [arrayLength_eq_zero small] at nonempty
    cases data : o.kalloc i with
    | none =>
      rw [data] at failed
      cases failed
      exact failure_of_ledger (fun able => (able.resolve_left nonempty).1 data) (by decide) rfl
        fun unwinds => unwinds.1 data
    | some address' =>
      rw [data] at failed
      dsimp only at failed
      split at failed
      · rename_i unreadable
        cases failed
        rw [List.append_assoc, List.append_assoc]
        exact failure_of_ledger (fun able => unreadable (able.resolve_left nonempty).2.1)
          (by decide) rfl fun unwinds => unreadable unwinds.2.1
      · rename_i readable
        split at failed
        · rename_i none'
          cases failed
          rw [List.append_assoc, List.append_assoc]
          exact failure_of_ledger (fun able => none' (able.resolve_left nonempty).2.2.1)
            (by decide) rfl fun unwinds => none' unwinds.2.2.1
        · rename_i any
          split at failed
          · rename_i history' copying
            obtain ⟨slots, more, some', more', entries⟩ :=
              (copyinObjects_ledger _ _ _ _ _ _ _ _).2 _ copying
            simp only [length_nil, zero_add, nil_append] at some' entries
            cases failed
            subst more'
            -- the loop stopped at the first missing right and destroyed what came before it
            have missing : ¬ ∀ j, ¬ MissingAt (o.right i) objects j := by
              rw [← beforeMissing_eq_none, some']
              simp
            refine ⟨fun able => missing (able.resolve_left nonempty).2.2.2, by decide,
              [.arrayLength objects.length (arrayLength objects.length),
                .kalloc address' (arrayLength objects.length)] ++
                  ((if deallocate then
                    [.vmDeallocate .user address.toNat (arrayLength objects.length).toNat]
                  else []) ++ (more ++ [.kfree address' (arrayLength objects.length)])),
              rights (copyinType disposition) slots, invalids (copyinType disposition) slots,
              slots.map fun s => (s, copyinType disposition),
              [(address', arrayLength objects.length)], ?_, ?_, rights_invalids _ _, ?_⟩
            · simp only [List.append_assoc, cons_append, nil_append]
            · simp only [ledger_append, entries]
              cases deallocate <;> apply Ledger.ext <;> simp [Event.entry]
            rw [invalids_ne_nil, Unwinds, pastInvalid_iff, some']
            have present : o.kalloc i ≠ none := by simp [data]
            simp only [present, not_not.mp readable, not_not.mp any, true_and, ne_eq,
              not_false_eq_true, some.injEq, exists_eq_left']
          · cases failed
  | other type =>
    cases failed
    exact failure_of_nothing id (by decide) id

end Descriptors

/-! ## What cleaning releases -/

section Cleaning

theorem ledger_cleanDescriptor (d : Descriptor) :
    ledger (cleanDescriptor d) =
      { destroyed := (ledger (cleanDescriptor d)).destroyed
        freed := (ledger (cleanDescriptor d)).freed
        unmoved := (ledger (cleanDescriptor d)).unmoved } := by
  cases d with
  | port name disposition =>
    by_cases good : valid name.word = true <;>
      simp [cleanDescriptor, destroyValid, good, Event.entry]
  | outOfLine address size deallocate copy =>
    by_cases empty : size = 0#32 <;> simp [cleanDescriptor, empty, Event.entry]
  | oolPorts address deallocate disposition objects =>
    by_cases empty : objects.length = 0
    · simp only [cleanDescriptor, if_pos empty]
      rfl
    · simp only [cleanDescriptor, if_neg empty, ledger_append, ledger_destroyValid]
      apply Ledger.ext <;> simp [Event.entry]
  | other type => rfl

theorem ledger_cleanBody (ds : List Descriptor) :
    ledger (cleanBody ds) =
      { destroyed := (ledger (cleanBody ds)).destroyed
        freed := (ledger (cleanBody ds)).freed
        unmoved := (ledger (cleanBody ds)).unmoved } := by
  induction ds with
  | nil => rfl
  | cons d rest ih =>
    have split' : ledger (cleanBody (d :: rest)) =
        ledger (cleanDescriptor d) ++ ledger (cleanBody rest) := by
      rw [cleanBody, flatMap_cons, ledger_append]
      rfl
    rw [split', ih, ledger_cleanDescriptor d]
    apply Ledger.ext <;> simp

theorem ledger_cleanBody_concat (ds : List Descriptor) (d : Descriptor) :
    ledger (cleanBody (ds ++ [d])) = ledger (cleanBody ds) ++ ledger (cleanDescriptor d) := by
  simp [cleanBody]

/-- The rights of the header of a message. -/
def headerRights (m : Message) : List (Slot × BitVec 8) :=
  (.object m.remotePort, remoteType m.bits) :: rights (localType m.bits) [.object m.localPort]

theorem ledger_cleanPartial (m : Message) (ds : List Descriptor) (paddr length : ℕ) :
    ledger (cleanPartial m ds paddr length) =
      { destroyed := headerRights m ++ (ledger (cleanBody ds)).destroyed
        freed := (ledger (cleanBody ds)).freed
        unmoved := (ledger (cleanBody ds)).unmoved
        pieces := if paddr ≠ 0 then [(paddr, length)] else [] } := by
  have header : ledger (destroyValid (localType m.bits) (.object m.localPort)) =
      { destroyed := rights (localType m.bits) [.object m.localPort] } := by
    have list := ledger_destroyValid (localType m.bits) [.object m.localPort]
    rwa [flatMap_cons, flatMap_nil, append_nil] at list
  rw [cleanPartial, ledger_append, ledger_append, ledger_append, header, ledger_cleanBody]
  by_cases zero : paddr = 0 <;> apply Ledger.ext <;> simp [Event.entry, zero, headerRights]

end Cleaning

/-! ## The area for physical copies -/

section Area

/-- The space of the piece that a descriptor takes. -/
def pieceNeed (page : ℕ) (d : Descriptor) : ℕ := (pieceOf d).elim 0 (roundPage page)

/-- The space of all the pieces. -/
def need (page : ℕ) (ds : List Descriptor) : ℕ := (ds.map (pieceNeed page)).sum

/-- No length of a port array wraps, and neither does the space for the physical copies. -/
structure SizesFit (page : ℕ) (ds : List Descriptor) : Prop where
  arrays : ∀ d ∈ ds, SmallCount d
  pieces : ∀ d ∈ ds, ∀ size ∈ pieceOf d, size + (page - 1) < 2 ^ 32
  area : need page ds < 2 ^ 32

/-- Pieces that follow each other from `start` to `stop`, each rounded up to whole pages. -/
def Tiles (page : ℕ) : ℕ → ℕ → List (ℕ × ℕ) → Prop
  | start, stop, [] => start = stop
  | start, stop, (address, size) :: rest =>
    address = start ∧ Tiles page (start + (size + (page - 1)) / page * page) stop rest

variable {page size needed : ℕ} {ds : List (Word × Descriptor)}

theorem Tiles.concat {start stop : ℕ} {pieces : List (ℕ × ℕ)}
    (tiles : Tiles page start stop pieces) (size : ℕ) :
    Tiles page start (stop + (size + (page - 1)) / page * page) (pieces ++ [(stop, size)]) := by
  induction pieces generalizing start with
  | nil =>
    obtain rfl : start = stop := tiles
    exact ⟨rfl, rfl⟩
  | cons piece rest ih => exact ⟨tiles.1, ih tiles.2⟩

theorem dvd_need (page : ℕ) (ds : List Descriptor) : page ∣ need page ds := by
  induction ds with
  | nil => exact dvd_zero page
  | cons d rest ih =>
    refine Nat.dvd_add ?_ ih
    unfold pieceNeed
    cases pieceOf d with
    | none => exact dvd_zero page
    | some size => exact Dvd.intro_left _ rfl

/-- A piece is never empty. -/
theorem pieceOf_pos {d : Descriptor} (piece : pieceOf d = some size) : 0 < size := by
  cases d with
  | outOfLine address size' deallocate copy =>
    rw [pieceOf] at piece
    split at piece
    · rename_i some'
      rw [← some.inj piece]
      exact Nat.pos_of_ne_zero fun zero => some'.1 (BitVec.eq_of_toNat_eq zero)
    · cases piece
  | port => cases piece
  | oolPorts => cases piece
  | other => cases piece

theorem roundPage_eq (small : size + (page - 1) < 2 ^ 32) :
    roundPage page size = (size + (page - 1)) / page * page := by
  have small : size + (page - 1) < 4294967296 := small
  rw [roundPage, Nat.mod_eq_of_lt small]

theorem roundPage_zero (pos : 0 < page) : roundPage page 0 = 0 := by
  have less : (0 + (page - 1)) % 4294967296 < page :=
    lt_of_le_of_lt (Nat.mod_le _ _) (by omega)
  rw [roundPage, Nat.div_eq_of_lt less, zero_mul]

theorem roundPage_pos (pos : 0 < page) (some' : 0 < size)
    (small : size + (page - 1) < 2 ^ 32) : 0 < roundPage page size := by
  rw [roundPage_eq small]
  exact Nat.mul_pos (Nat.div_pos (by omega) pos) pos

/-- Reading a descriptor enters nothing. -/
theorem ledger_read (history : List Event) (address : Word) :
    ledger (history ++ [.read address]) = ledger history := by
  rw [ledger_append]
  exact Ledger.append_empty _

/-- The first pass adds up the pieces. -/
theorem spaceNeeded_eq (pos : 0 < page) {n : ℕ} {history h : List Event} (fits : needed + need page (ds.map (·.2)) < 2 ^ 32)
    (passed : spaceNeeded page needed history ds = .ok (n, h)) :
    n = needed + need page (ds.map (·.2)) ∧ ledger h = ledger history := by
  induction ds generalizing needed history with
  | nil =>
    cases passed
    exact ⟨rfl, rfl⟩
  | cons x rest ih =>
    obtain ⟨address, d⟩ := x
    have read := ledger_read history address
    rw [map_cons, need, map_cons, sum_cons, ← add_assoc] at fits ⊢
    have skip : pieceOf d = none → spaceNeeded page needed (history ++ [.read address]) rest =
        .ok (n, h) →
        n = needed + pieceNeed page d + need page (rest.map (·.2)) ∧ ledger h = ledger history := by
      intro none' passed
      rw [pieceNeed, none'] at fits ⊢
      obtain ⟨total, same⟩ := ih fits passed
      exact ⟨total, same.trans read⟩
    cases d with
    | outOfLine a size deallocate copy =>
      rw [spaceNeeded] at passed
      split at passed
      · cases passed
      split at passed
      · rename_i physical
        -- a region of size 0 is no piece, and rounds to no page either
        by_cases empty : size = 0#32
        · refine skip (if_neg fun both => both.1 empty) ?_
          rwa [empty, BitVec.toNat_ofNat, Nat.zero_mod, roundPage_zero pos, add_zero,
            Nat.mod_eq_of_lt (by omega)] at passed
        have piece : pieceNeed page (.outOfLine a size deallocate copy) =
            roundPage page size.toNat := by
          rw [pieceNeed, pieceOf, if_pos ⟨empty, physical⟩]
          rfl
        rw [piece] at fits ⊢
        rw [Nat.mod_eq_of_lt (by omega)] at passed
        obtain ⟨total, same⟩ := ih fits passed
        exact ⟨total, same.trans read⟩
      · rename_i virtual
        exact skip (if_neg fun both => virtual both.2) passed
    | port => exact skip rfl passed
    | oolPorts => exact skip rfl passed
    | other => exact skip rfl passed

theorem spaceNeeded_error {history h : List Event} (failed : spaceNeeded page needed history ds = .error h) :
    ledger h = ledger history := by
  induction ds generalizing needed history with
  | nil => cases failed
  | cons x rest ih =>
    obtain ⟨address, d⟩ := x
    have read := ledger_read history address
    cases d with
    | outOfLine a size deallocate copy =>
      rw [spaceNeeded] at failed
      split at failed
      · cases failed
        exact read
      · split at failed
        · exact (ih failed).trans read
        · exact (ih failed).trans read
    | port => exact (ih failed).trans read
    | oolPorts => exact (ih failed).trans read
    | other => exact (ih failed).trans read

end Area

/-! ## When a failure releases everything once -/

section Main

/-- The outcomes of the calls on a machine: pages are not empty, and an area that is allocated in
the copy map of the kernel lies in the address space and not at its beginning. -/
structure Environment extends Outcomes where
  page : ℕ
  pagePos : 0 < page
  placed : ∀ size address, vmAllocate size = some address → 0 < address ∧ address + size < 2 ^ 32

/-- A message whose destination right is there, as `ipc_kmsg_copyin_header` leaves it. -/
structure HeldMessage extends Message where
  held : valid remotePort

/-- A record releases exactly what was taken, each right once and with the type it came in as, each
array and each region once, and all of the area that is left. -/
structure Released (page : ℕ) (m : Message) (history : List Event) : Prop where
  rights : (ledger history).destroyed.Perm (headerRights m ++ (ledger history).acquired)
  valid : ∀ x ∈ (ledger history).destroyed, valid x.1.word
  arrays : (ledger history).freed.Perm (ledger history).allocated
  regions : (ledger history).unmoved.Perm (ledger history).moved
  area : (ledger history).area = [] ∧ (ledger history).pieces = [] ∨ ∃ address size,
    (ledger history).area = [(address, size)] ∧
      Tiles page address (address + size) (ledger history).pieces

/-- A failed copyin releases exactly what it took. -/
def ReleasesOnFailure (env : Environment) (m : Message) : Prop :=
  (copyinBody env.toOutcomes env.page m).code ≠ machMsgSuccess →
    Released env.page m (copyinBody env.toOutcomes env.page m).history

/-- A port array is undone past a null or dead entry, all the descriptors before it having come in.
-/
def UnwindsFrom (o : Outcomes) : ℕ → List Descriptor → Prop
  | _, [] => False
  | i, d :: rest => Unwinds o i d ∨ Copyable o i d ∧ UnwindsFrom o (i + 1) rest

/-- The second pass is come to, and in it a port array is undone past a null or dead entry. -/
def UndoesInvalid (env : Environment) (m : Message) : Prop :=
  ¬ m.tooSmall ∧ (∀ x ∈ m.descriptors, CopyOption x.2) ∧
    (0 < need env.page (m.descriptors.map (·.2)) →
      env.vmAllocate (need env.page (m.descriptors.map (·.2))) ≠ none) ∧
    UnwindsFrom env.toOutcomes 0 (m.descriptors.map (·.2))

/-- Before each descriptor: what was taken is what cleaning the descriptors done would release, and
the pieces used follow each other up to the rest of the area, which is what the others need. -/
structure Holding (page : ℕ) (st : Copied) (rest : List Descriptor) : Prop where
  acquired : (ledger st.history).acquired = (ledger (cleanBody st.done)).destroyed
  destroyed : (ledger st.history).destroyed = []
  allocated : (ledger st.history).allocated = (ledger (cleanBody st.done)).freed
  freed : (ledger st.history).freed = []
  moved : (ledger st.history).moved = (ledger (cleanBody st.done)).unmoved
  unmoved : (ledger st.history).unmoved = []
  spaceNeeded : st.spaceNeeded = need page rest
  area : (ledger st.history).area = [] ∧ (ledger st.history).pieces = [] ∧ st.paddr = 0 ∧
      need page rest = 0 ∨
    ∃ address size, (ledger st.history).area = [(address, size)] ∧ 0 < address ∧
      address + size < 2 ^ 32 ∧ Tiles page address st.paddr (ledger st.history).pieces ∧
      address ≤ st.paddr ∧ st.paddr + st.spaceNeeded = address + size

variable {o : Outcomes} {page i : ℕ} {m : Message} {st st' : Copied} {d : Descriptor}
  {rest : List Descriptor}

/-- Reading a descriptor changes no account. -/
theorem Holding.congr (holding : Holding page st rest) {history : List Event}
    (same : ledger history = ledger st.history) :
    Holding page { st with history := history } rest where
  acquired := (congrArg Ledger.acquired same).trans holding.acquired
  destroyed := (congrArg Ledger.destroyed same).trans holding.destroyed
  allocated := (congrArg Ledger.allocated same).trans holding.allocated
  freed := (congrArg Ledger.freed same).trans holding.freed
  moved := (congrArg Ledger.moved same).trans holding.moved
  unmoved := (congrArg Ledger.unmoved same).trans holding.unmoved
  spaceNeeded := holding.spaceNeeded
  area := same ▸ holding.area

/-- Before the first descriptor there is at most the area. -/
theorem holding_start {history : List Event} {area : List (ℕ × ℕ)} {paddr needed : ℕ}
    (entry : ledger history = { area := area }) (same : needed = need page rest)
    (placed : area = [] ∧ paddr = 0 ∧ need page rest = 0 ∨
      area = [(paddr, needed)] ∧ 0 < paddr ∧ paddr + needed < 2 ^ 32) :
    Holding page ⟨[], paddr, needed, false, false, history⟩ rest where
  acquired := congrArg Ledger.acquired entry
  destroyed := congrArg Ledger.destroyed entry
  allocated := congrArg Ledger.allocated entry
  freed := congrArg Ledger.freed entry
  moved := congrArg Ledger.moved entry
  unmoved := congrArg Ledger.unmoved entry
  spaceNeeded := same
  area := by
    rw [entry]
    rcases placed with ⟨rfl, zero, none'⟩ | ⟨rfl, above, below⟩
    · exact .inl ⟨rfl, rfl, zero, none'⟩
    · exact .inr ⟨paddr, needed, rfl, above, below, rfl, le_rfl, rfl⟩

/-- A descriptor copied in keeps the account. -/
theorem Holding.step (pos : 0 < page) (holding : Holding page st (d :: rest))
    (fits : SizesFit page (d :: rest)) (step : Step o page i st d st') :
    Holding page st' rest := by
  obtain ⟨d', more, done, history, entry⟩ := step.entry
  have split' : need page (d :: rest) = pieceNeed page d + need page rest := rfl
  have ledger' : ledger st'.history = ledger st.history ++ taken d' st.paddr (pieceOf d) := by
    rw [history, ledger_append, entry]
  have clean : ledger (cleanBody st'.done) =
      ledger (cleanBody st.done) ++ ledger (cleanDescriptor d') := by
    rw [done, ledger_cleanBody_concat]
  have remaining : st'.spaceNeeded = need page rest := by
    have space := step.spaceNeeded
    have before := holding.spaceNeeded
    have less := fits.area
    rw [split', pieceNeed] at before less
    cases piece : pieceOf d with
    | none =>
      rw [piece] at space before
      simpa [space] using before
    | some size =>
      rw [piece] at space before less
      simp only [elim_some] at before less
      rw [space, before]
      simp only [sub32]
      omega
  refine ⟨?_, ?_, ?_, ?_, ?_, ?_, ?_, ?_⟩
  · rw [ledger', clean, Ledger.acquired_append, Ledger.destroyed_append, holding.acquired]
    rfl
  · rw [ledger', Ledger.destroyed_append, holding.destroyed]
    rfl
  · rw [ledger', clean, Ledger.allocated_append, Ledger.freed_append, holding.allocated]
    rfl
  · rw [ledger', Ledger.freed_append, holding.freed]
    rfl
  · rw [ledger', clean, Ledger.moved_append, Ledger.unmoved_append, holding.moved]
    rfl
  · rw [ledger', Ledger.unmoved_append, holding.unmoved]
    rfl
  · exact remaining
  have paddr := step.paddr
  have space := step.spaceNeeded
  rw [ledger', Ledger.area_append, Ledger.pieces_append]
  -- the piece of this descriptor ends where the next one begins
  cases piece : pieceOf d with
  | none =>
    rw [piece] at paddr space
    rw [paddr, space]
    rw [show (taken d' st.paddr none).area = [] from rfl,
      show (taken d' st.paddr none).pieces = [] from rfl, append_nil, append_nil]
    refine holding.area.imp (fun empty => ?_) id
    exact ⟨empty.1, empty.2.1, empty.2.2.1, by omega⟩
  | some size =>
    rw [piece] at paddr space
    dsimp only at paddr space
    have small := fits.pieces d mem_cons_self size piece
    have needs : pieceNeed page d = roundPage page size := by rw [pieceNeed, piece]; rfl
    have positive := roundPage_pos pos (pieceOf_pos piece) small
    rcases holding.area with empty | ⟨address, total, area, above, below, tiles, from', upTo⟩
    · -- without an area nothing was needed, but a piece is never empty
      omega
    refine .inr ⟨address, total, ?_, above, below, ?_, ?_, ?_⟩
    · rw [area]
      rfl
    · have tiles' := tiles.concat size
      rw [← roundPage_eq small] at tiles'
      rw [paddr, Nat.mod_eq_of_lt (by have := holding.spaceNeeded; omega)]
      exact tiles'
    · rw [paddr, Nat.mod_eq_of_lt (by have := holding.spaceNeeded; omega)]
      omega
    · have before := holding.spaceNeeded
      rw [paddr, Nat.mod_eq_of_lt (by omega), remaining]
      omega

/-- Only valid rights count as acquired. -/
theorem acquired_valid (history : List Event) :
    ∀ x ∈ (ledger history).acquired, valid x.1.word := by
  induction history with
  | nil => nofun
  | cons e rest ih =>
    intro x mem
    rw [ledger_cons, Ledger.acquired_append] at mem
    rcases mem_append.mp mem with mem | mem
    · cases e with
      | copiedIn object type =>
        simp only [Event.entry] at mem
        split at mem
        · rename_i live
          rw [mem_singleton.mp mem]
          exact live
        · cases mem
      | vmDeallocate map address size => cases map <;> cases mem
      | _ => cases mem
    · exact ih x mem

theorem headerRights_valid (m : HeldMessage) :
    ∀ x ∈ headerRights m.toMessage, valid x.1.word := by
  intro x mem
  rcases mem_cons.mp mem with rfl | mem
  · exact m.held
  · obtain ⟨s, live, rfl⟩ := mem_map.mp mem
    exact (mem_filter.mp live).2

/-- Releasing the descriptors done and the rest of the area completes the account. -/
theorem Holding.released (pos : 0 < page) (holding : Holding page st rest) (history : List Event)
    {held extra destroyed : List (Slot × BitVec 8)} {arrays : List (Word × Word)}
    (entry : ledger history = ledger st.history ++
      { acquired := held, destroyed := destroyed, allocated := arrays, freed := arrays } ++
      ledger (cleanPartial m st.done st.paddr st.spaceNeeded))
    (perm : destroyed.Perm (held ++ extra)) (header : ∀ x ∈ headerRights m, valid x.1.word) :
    Released page m history ↔ extra = [] := by
  have total : (ledger history).destroyed.Perm
      (headerRights m ++ (ledger history).acquired ++ extra) := by
    rw [entry, ledger_cleanPartial]
    simp only [Ledger.destroyed_append, Ledger.acquired_append, holding.destroyed, holding.acquired,
      nil_append, append_nil]
    refine (perm.append_right _).trans ?_
    generalize (ledger (cleanBody st.done)).destroyed = cleaned
    rw [perm_iff_count]
    intro x
    simp only [count_append]
    omega
  constructor
  · -- all rights released once leave no room for the extra ones
    intro released
    have same := total.symm.trans released.rights
    have short := same.length_eq
    rw [length_append] at short
    exact length_eq_zero_iff.mp (by omega)
  · rintro rfl
    rw [append_nil] at total
    refine ⟨total, fun x mem => ?_, ?_, ?_, ?_⟩
    · rcases mem_append.mp (total.mem_iff.mp mem) with mem | mem
      · exact header x mem
      · exact acquired_valid history x mem
    · rw [entry, ledger_cleanPartial]
      simp only [Ledger.freed_append, Ledger.allocated_append, holding.freed, holding.allocated,
        nil_append, append_nil]
      exact perm_append_comm
    · rw [entry, ledger_cleanPartial]
      simp only [Ledger.unmoved_append, Ledger.moved_append, holding.unmoved, holding.moved,
        nil_append, append_nil]
      exact List.Perm.refl _
    · rw [entry, ledger_cleanPartial]
      simp only [Ledger.area_append, Ledger.pieces_append, append_nil]
      rcases holding.area with
        ⟨none', pieces, zero, -⟩ | ⟨address, size, area, above, -, tiles, upTo, same⟩
      · exact .inl ⟨none', by rw [pieces, zero]; rfl⟩
      refine .inr ⟨address, size, area, ?_⟩
      rw [if_pos (by omega)]
      have tiles' := tiles.concat st.spaceNeeded
      rw [← same]
      obtain ⟨k, multiple⟩ := holding.spaceNeeded ▸ dvd_need page rest
      have whole : (st.spaceNeeded + (page - 1)) / page * page = st.spaceNeeded := by
        rw [multiple, Nat.mul_add_div pos, Nat.div_eq_of_lt (by omega), add_zero, mul_comm]
      rwa [whole] at tiles'

/-- The second pass releases everything once if it fails, unless it undoes a null or dead entry. -/
theorem copyinDescriptors_released (pos : 0 < page) (ds : List (Word × Descriptor))
    (holding : Holding page st (ds.map (·.2))) (fits : SizesFit page (ds.map (·.2)))
    (header : ∀ x ∈ headerRights m, valid x.1.word) :
    ((copyinDescriptors o page m st ds).code ≠ machMsgSuccess →
        Released page m (copyinDescriptors o page m st ds).history) ↔
      ¬ UnwindsFrom o st.done.length (ds.map (·.2)) := by
  induction ds generalizing st with
  | nil => exact ⟨fun _ => id, fun _ failed => absurd rfl failed⟩
  | cons x rest ih =>
    obtain ⟨address, d⟩ := x
    have read : ledger (st.history ++ [.read address]) = ledger st.history := by
      rw [ledger_append]
      exact Ledger.append_empty _
    have holding' := holding.congr read
    have small := fits.arrays d mem_cons_self
    rw [copyinDescriptors, map_cons, UnwindsFrom]
    cases outcome : copyinDescriptor o page st.done.length
        { st with history := st.history ++ [.read address] } d with
    | error failure =>
      obtain ⟨code, history⟩ := failure
      obtain ⟨uncopyable, error, more, held, extra, destroyed, arrays, rfl, entry, perm, unwinds⟩ :=
        copyinDescriptor_failure small outcome
      have released := holding'.released (m := m) pos (st.history ++ [.read address] ++ more ++
        cleanPartial m st.done st.paddr st.spaceNeeded)
        (by rw [ledger_append, ledger_append (_ ++ _), entry]) perm header
      rw [released, ← unwinds]
      constructor
      · intro complete
        rintro (some' | ⟨able, -⟩)
        · exact some' (complete error)
        · exact uncopyable able
      · intro orderly _
        exact not_not.mp fun some' => orderly (.inl some')
    | ok st' =>
      have step := copyinDescriptor_step small outcome
      have fits' : SizesFit page (rest.map (·.2)) :=
        ⟨fun d mem => fits.arrays d (mem_cons_of_mem _ mem),
          fun d mem => fits.pieces d (mem_cons_of_mem _ mem),
          lt_of_le_of_lt (Nat.le_add_left _ _) fits.area⟩
      obtain ⟨d', more, done, -⟩ := step.entry
      have next := ih (holding'.step pos fits step) fits'
      rw [done, length_append, length_singleton] at next
      rw [next]
      have copyable := step.copyable
      have orderly := step.orderly
      tauto

/-- A space without rights. -/
def noRights : Environment where
  vmAllocate _ := none
  right _ _ := none
  circular _ _ := false
  copyin _ := true
  vmMove _ := some 0x8000#32
  kalloc _ := some 0x9000#32
  copyinmap _ := true
  page := 4096
  pagePos := by decide
  placed := nofun

/-- A message with one array of two ports, the null name and a name. -/
def nullAndName : HeldMessage where
  header := 0x1000#32
  bits := 0x80000011#32
  size := 40#32
  remotePort := 0x2000#32
  localPort := 0#32
  descriptorCount := 1#32
  descriptorAt _ := .oolPorts 0x5000#32 false machMsgTypePortSend [.name 0#32, .name 0x103#32]
  held := by decide

end Main

end Darwin.Ipc.Body
