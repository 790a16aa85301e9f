import Darwin.Ipc.Kmsg.Body

/-!
# The bounds of a message body

The test of the descriptor count against the size of the message adds the size to a pointer to
message headers, so it counts each byte as a whole header, and the length of a port array is a
product of 32 bits.  The copyin stays inside the message and the arrays exactly when neither of the
two lets a hostile message through.

## Main results

* `Message.descriptors_inBounds`: descriptors that fit are all that the loops go over
* `copyinDescriptors_inBounds`: the second pass stays inside what it is given
* `copyinBody_staysInside_iff`: when the copyin stays inside
* `count_past_the_end`: a message of one descriptor's room with the count of two
-/

namespace Darwin.Ipc.Body

open List

/-- A message in its buffer, as `ipc_kmsg_get` leaves it: it holds a header, and the longest trailer
fits after it. -/
structure PlacedMessage extends Message where
  whole : 24 ≤ size.toNat
  room : header.toNat + size.toNat + 20 < 2 ^ 32

/-- All the descriptors lie within the bytes of the message. -/
def Message.Fits (m : Message) : Prop := 28 + 12 * m.descriptorCount.toNat ≤ m.size.toNat

/-- A descriptor that is read lies within the message, the length of an array has not wrapped, and
an index is below the number of elements that fit in it. -/
def InBounds (m : Message) : Event → Prop
  | .read a => m.header.toNat ≤ a.toNat ∧ a.toNat + 12 ≤ m.header.toNat + m.size.toNat
  | .arrayLength count length => 4 * count = length.toNat
  | .index j length => 4 * (j + 1) ≤ length.toNat
  | _ => True

/-- Whatever the outcomes of its calls, the copyin reads and addresses nothing out of bounds, and
refuses a message whose descriptors do not fit. -/
def StaysInside (page : ℕ) (m : Message) : Prop :=
  ∀ o, (¬ m.Fits → (copyinBody o page m).code = machSendMsgTooSmall) ∧
    ∀ e ∈ (copyinBody o page m).history, InBounds m e

/-- The length of a port array does not wrap. -/
def SmallCount : Descriptor → Prop
  | .oolPorts _ _ _ objects => 4 * objects.length < 2 ^ 32
  | _ => True

/-- The first pass accepts the copy option. -/
def CopyOption : Descriptor → Prop
  | .outOfLine _ _ _ copy => copy = machMsgPhysicalCopy ∨ copy = machMsgVirtualCopy
  | _ => True

/-- The second pass can get past the descriptor. -/
def Passable : Descriptor → Prop
  | .port _ disposition => portAny disposition
  | .outOfLine .. => True
  | .oolPorts _ _ disposition objects => arrayLength objects.length = 0#32 ∨ portAny disposition
  | .other _ => False

/-- The second pass can come to a port array only if its length does not wrap. -/
def SmallReached (ds : List Descriptor) : Prop :=
  ∀ before d after, ds = before ++ d :: after → (∀ x ∈ before, Passable x) → SmallCount d

/-! ## The descriptors -/

section Descriptors

variable {m : Message}

theorem Message.mem_descriptorsFrom {stop : Word} {fuel : ℕ} {start : Word} {x : Word × Descriptor}
    (mem : x ∈ m.descriptorsFrom stop fuel start) :
    ∃ k < fuel, x.1 = start + 12#32 * BitVec.ofNat 32 k := by
  induction fuel generalizing start with
  | zero => cases mem
  | succ fuel ih =>
    rw [Message.descriptorsFrom] at mem
    split at mem
    · rcases mem_cons.mp mem with rfl | mem
      · exact ⟨0, Nat.succ_pos _, by simp⟩
      obtain ⟨k, less, same⟩ := ih mem
      refine ⟨k + 1, Nat.succ_lt_succ less, ?_⟩
      rw [same, BitVec.ofNat_add, BitVec.mul_add, BitVec.add_assoc,
        BitVec.add_comm (12#32 * BitVec.ofNat 32 k)]
      rfl
    · cases mem

/-- Descriptors that fit are all that the loops go over. -/
theorem Message.descriptors_inBounds (m : PlacedMessage) (fits : m.Fits) :
    ∀ x ∈ m.descriptors, InBounds m.toMessage (.read x.1) := by
  intro x mem
  obtain ⟨k, less, same⟩ := Message.mem_descriptorsFrom mem
  have room := m.room
  unfold Message.Fits at fits
  have address : x.1.toNat = m.header.toNat + 28 + 12 * k := by
    rw [same, Message.saddr]
    simp only [BitVec.toNat_add, BitVec.toNat_mul, BitVec.toNat_ofNat]
    omega
  exact ⟨by omega, by omega⟩

end Descriptors

/-! ## What each part records -/

section Records

variable {o : Outcomes} {page : ℕ} {m : Message} {e : Event} {history : List Event}
  {ds : List (Word × Descriptor)}

theorem eq_of_mem_destroyValid {type : BitVec 8} {object : Slot}
    (mem : e ∈ destroyValid type object) : e = .objectDestroy object type := by
  unfold destroyValid at mem
  split at mem
  · exact mem_singleton.mp mem
  · cases mem

theorem cleanDescriptor_inBounds (d : Descriptor) : ∀ e ∈ cleanDescriptor d, InBounds m e := by
  intro e mem
  cases d with
  | port name disposition =>
    rw [eq_of_mem_destroyValid mem]
    trivial
  | outOfLine address size deallocate copy =>
    rw [cleanDescriptor] at mem
    split at mem
    · cases mem
    · rw [mem_singleton.mp mem]
      trivial
  | oolPorts address deallocate disposition objects =>
    rw [cleanDescriptor] at mem
    split at mem
    · cases mem
    rcases mem_append.mp mem with mem | mem
    · obtain ⟨object, -, mem⟩ := mem_flatMap.mp mem
      rw [eq_of_mem_destroyValid mem]
      trivial
    · rw [mem_singleton.mp mem]
      trivial
  | other type =>
    rw [mem_singleton.mp mem]
    trivial

theorem cleanPartial_inBounds (descriptors : List Descriptor) (paddr length : ℕ) :
    ∀ e ∈ cleanPartial m descriptors paddr length, InBounds m e := by
  intro e mem
  simp only [cleanPartial, mem_append, or_assoc] at mem
  rcases mem with mem | mem | mem | mem
  · rw [mem_singleton.mp mem]
    trivial
  · rw [eq_of_mem_destroyValid mem]
    trivial
  · split at mem
    · rw [mem_singleton.mp mem]
      trivial
    · cases mem
  · obtain ⟨d, -, mem⟩ := mem_flatMap.mp mem
    exact cleanDescriptor_inBounds d e mem

/-- A record with something put to it that is in bounds. -/
theorem inBounds_append {more : List Event} (inside : ∀ e ∈ history, InBounds m e)
    (inside' : ∀ e ∈ more, InBounds m e) : ∀ e ∈ history ++ more, InBounds m e := by
  intro e mem
  exact (mem_append.mp mem).elim (inside e) (inside' e)

theorem inBounds_singleton (inside : InBounds m e) : ∀ x ∈ [e], InBounds m x := by
  intro x mem
  rwa [mem_singleton.mp mem]

theorem deallocate_inBounds (deallocate : Bool) (address size : ℕ) :
    ∀ e ∈ if deallocate then [Event.vmDeallocate .user address size] else [], InBounds m e := by
  cases deallocate with
  | false => nofun
  | true => exact inBounds_singleton trivial

theorem unwind_inBounds (port : Word) (type : BitVec 8) (copied : List Slot) :
    ∀ e ∈ unwind port type copied, InBounds m e := by
  intro e mem
  obtain ⟨object, -, mem⟩ := mem_flatMap.mp mem
  split at mem
  · cases mem
  · rw [mem_singleton.mp mem]
    trivial

/-- The records of a success and of a failure are in bounds. -/
def RecordInBounds {β γ : Type} (m : Message) (record : γ → List Event) (failed : β → List Event)
    (outcome : Except β γ) : Prop :=
  (∀ b, outcome = .error b → ∀ e ∈ failed b, InBounds m e) ∧
    ∀ c, outcome = .ok c → ∀ e ∈ record c, InBounds m e

theorem recordInBounds_error {β γ : Type} {record : γ → List Event} {failed : β → List Event}
    {b : β} (inside : ∀ e ∈ failed b, InBounds m e) :
    RecordInBounds m record failed (.error b) := by
  refine ⟨fun b' same => ?_, nofun⟩
  rwa [← Except.error.inj same]

theorem recordInBounds_ok {β γ : Type} {record : γ → List Event} {failed : β → List Event}
    {c : γ} (inside : ∀ e ∈ record c, InBounds m e) :
    RecordInBounds m record failed (.ok c) := by
  refine ⟨nofun, fun c' same => ?_⟩
  rwa [← Except.ok.inj same]

theorem copyinObjects_inBounds (o : Outcomes) (i : ℕ) (name : BitVec 8) (copied : List Slot)
    (circular : Bool) (objects : List Slot) {length : Word}
    (room : 4 * (copied.length + objects.length) ≤ length.toNat)
    (inside : ∀ e ∈ history, InBounds m e) :
    RecordInBounds m (fun c => c.2.2) id
      (copyinObjects o i name length copied circular history objects) := by
  induction objects generalizing copied circular history with
  | nil => exact recordInBounds_ok inside
  | cons port rest ih =>
    rw [length_cons] at room
    have inside := inBounds_append (m := m) inside
      (inBounds_singleton (e := .index copied.length length) (by unfold InBounds; omega))
    rw [copyinObjects]
    split
    · exact ih _ _ (by rw [length_append, length_singleton]; omega) inside
    cases o.right i copied.length with
    | none => exact recordInBounds_error (inBounds_append inside (unwind_inBounds _ _ _))
    | some object =>
      exact ih _ _ (by rw [length_append, length_singleton]; omega)
        (inBounds_append inside (inBounds_singleton trivial))

theorem copyinDescriptor_inBounds (o : Outcomes) (page i : ℕ) (st : Copied) {d : Descriptor}
    (small : SmallCount d)
    (inside : ∀ e ∈ st.history, InBounds m e) :
    RecordInBounds m Copied.history Prod.snd (copyinDescriptor o page i st d) := by
  cases d with
  | port name disposition =>
    rw [copyinDescriptor]
    split
    · exact recordInBounds_error inside
    split
    · exact recordInBounds_ok inside
    cases o.right i 0 with
    | none => exact recordInBounds_error inside
    | some object =>
      exact recordInBounds_ok (inBounds_append inside (inBounds_singleton trivial))
  | outOfLine address size deallocate copy =>
    rw [copyinDescriptor]
    split
    · exact recordInBounds_ok inside
    split
    · split
      · exact recordInBounds_error inside
      cases o.vmMove i with
      | none => exact recordInBounds_error inside
      | some region =>
        refine recordInBounds_ok (inBounds_append inside fun e mem => ?_)
        rcases mem_pair.mp mem with rfl | rfl <;> trivial
    · cases o.vmMove i with
      | none => exact recordInBounds_error inside
      | some region =>
        exact recordInBounds_ok
          (inBounds_append (inBounds_append inside (inBounds_singleton trivial))
            (deallocate_inBounds deallocate address.toNat size.toNat))
  | oolPorts address deallocate disposition objects =>
    -- only a length that has not wrapped has room for all the indices of the loop
    have whole : 4 * objects.length = (arrayLength objects.length).toNat := by
      rw [arrayLength, BitVec.toNat_ofNat, Nat.mod_eq_of_lt small]
    have inside := inBounds_append inside (inBounds_singleton
        (show InBounds m (.arrayLength objects.length (arrayLength objects.length)) from whole))
    rw [copyinDescriptor]
    split
    · exact recordInBounds_ok inside
    cases o.kalloc i with
    | none => exact recordInBounds_error inside
    | some data =>
      have inside := inBounds_append inside
        (inBounds_singleton (e := .kalloc data (arrayLength objects.length)) trivial)
      dsimp only
      split
      · exact recordInBounds_error (inBounds_append inside (inBounds_singleton trivial))
      split
      · exact recordInBounds_error (inBounds_append inside (inBounds_singleton trivial))
      have copying := copyinObjects_inBounds o i disposition [] st.circular objects
        (by rw [length_nil, zero_add]; exact whole.le)
        (inBounds_append inside (deallocate_inBounds deallocate address.toNat
          (arrayLength objects.length).toNat))
      split
      · exact recordInBounds_error (inBounds_append (copying.1 _ ‹_›) (inBounds_singleton trivial))
      · exact recordInBounds_ok (copying.2 _ ‹_›)
  | other type => exact recordInBounds_error inside

/-- A descriptor that is copied in could be passed. -/
theorem passable_of_ok {i : ℕ} {st st' : Copied} {d : Descriptor}
    (copied : copyinDescriptor o page i st d = .ok st') : Passable d := by
  cases d with
  | port name disposition =>
    rw [copyinDescriptor] at copied
    split at copied
    · cases copied
    · exact not_not.mp ‹_›
  | outOfLine => trivial
  | oolPorts address deallocate disposition objects =>
    rw [copyinDescriptor] at copied
    split at copied
    · exact .inl ‹_›
    cases data : o.kalloc i with
    | none => simp [data] at copied
    | some =>
      rw [data] at copied
      dsimp only at copied
      split at copied
      · cases copied
      · split at copied
        · cases copied
        · exact .inr (not_not.mp ‹_›)
  | other type => cases copied

/-- The second pass stays inside what it is given. -/
theorem copyinDescriptors_inBounds {st : Copied}
    (inside : ∀ e ∈ st.history, InBounds m e) (reads : ∀ x ∈ ds, InBounds m (.read x.1))
    (small : SmallReached (ds.map (·.2))) :
    ∀ e ∈ (copyinDescriptors o page m st ds).history, InBounds m e := by
  induction ds generalizing st with
  | nil => exact inside
  | cons x rest ih =>
    obtain ⟨address, d⟩ := x
    have step := copyinDescriptor_inBounds o page st.done.length
      { st with history := st.history ++ [.read address] } (small [] d _ rfl nofun)
      (inBounds_append inside (inBounds_singleton (reads _ mem_cons_self)))
    rw [copyinDescriptors]
    cases outcome : copyinDescriptor o page st.done.length
        { st with history := st.history ++ [.read address] } d with
    | error failure =>
      exact inBounds_append (step.1 _ outcome) (cleanPartial_inBounds _ _ _)
    | ok st' =>
      -- a later count matters only where all before it is copied in
      refine ih (step.2 _ outcome) (fun x mem => reads x (mem_cons_of_mem _ mem)) ?_
      intro before d' after same passed
      refine small (d :: before) d' after (by simp [same]) ?_
      exact forall_mem_cons.mpr ⟨passable_of_ok outcome, passed⟩

/-- The first pass reads the descriptors it is given. -/
theorem spaceNeeded_inBounds (page needed : ℕ) (inside : ∀ e ∈ history, InBounds m e)
    (reads : ∀ x ∈ ds, InBounds m (.read x.1)) :
    RecordInBounds m Prod.snd id (spaceNeeded page needed history ds) := by
  induction ds generalizing needed history with
  | nil => exact recordInBounds_ok inside
  | cons x rest ih =>
    obtain ⟨address, d⟩ := x
    have inside := inBounds_append inside (inBounds_singleton (reads _ mem_cons_self))
    have reads' : ∀ x ∈ rest, InBounds m (.read x.1) :=
      fun x mem => reads x (mem_cons_of_mem _ mem)
    cases d with
    | outOfLine a size deallocate copy =>
      rw [spaceNeeded]
      split
      · exact recordInBounds_error inside
      · split
        · exact ih _ inside reads'
        · exact ih _ inside reads'
    | port => exact ih _ inside reads'
    | oolPorts => exact ih _ inside reads'
    | other => exact ih _ inside reads'

end Records

/-! ## Reaching a port array -/

section Reaching

variable {o : Outcomes} {page : ℕ} {m : Message} {e : Event}

/-- An event is in the record of a success and of a failure. -/
def Recorded {β γ : Type} (e : Event) (record : γ → List Event) (failed : β → List Event)
    (outcome : Except β γ) : Prop :=
  (∀ b, outcome = .error b → e ∈ failed b) ∧ ∀ c, outcome = .ok c → e ∈ record c

theorem recorded_error {β γ : Type} {record : γ → List Event} {failed : β → List Event} {b : β}
    (mem : e ∈ failed b) : Recorded e record failed (.error b) := by
  refine ⟨fun b' same => ?_, nofun⟩
  rwa [← Except.error.inj same]

theorem recorded_ok {β γ : Type} {record : γ → List Event} {failed : β → List Event} {c : γ}
    (mem : e ∈ record c) : Recorded e record failed (.ok c) := by
  refine ⟨nofun, fun c' same => ?_⟩
  rwa [← Except.ok.inj same]

theorem copyinObjects_recorded (i : ℕ) (name : BitVec 8) (length : Word) (copied : List Slot)
    (circular : Bool) (objects : List Slot) {history : List Event} (mem : e ∈ history) :
    Recorded e (fun c => c.2.2) id
      (copyinObjects o i name length copied circular history objects) := by
  induction objects generalizing copied circular history with
  | nil => exact recorded_ok mem
  | cons port rest ih =>
    have mem := mem_append_left [.index copied.length length] mem
    rw [copyinObjects]
    split
    · exact ih _ _ mem
    · cases o.right i copied.length with
      | none => exact recorded_error (mem_append_left _ mem)
      | some object => exact ih _ _ (mem_append_left _ mem)

theorem copyinDescriptor_recorded (o : Outcomes) (page i : ℕ) (st : Copied) (d : Descriptor)
    (mem : e ∈ st.history ∨ ∃ address deallocate disposition objects,
      d = .oolPorts address deallocate disposition objects ∧
        e = .arrayLength objects.length (arrayLength objects.length)) :
    Recorded e Copied.history Prod.snd (copyinDescriptor o page i st d) := by
  cases d with
  | port name disposition =>
    obtain mem := mem.resolve_right (by rintro ⟨_, _, _, _, same, -⟩; cases same)
    rw [copyinDescriptor]
    split
    · exact recorded_error mem
    split
    · exact recorded_ok mem
    · cases o.right i 0 with
      | none => exact recorded_error mem
      | some object => exact recorded_ok (mem_append_left _ mem)
  | outOfLine address size deallocate copy =>
    obtain mem := mem.resolve_right (by rintro ⟨_, _, _, _, same, -⟩; cases same)
    rw [copyinDescriptor]
    split
    · exact recorded_ok mem
    split
    · split
      · exact recorded_error mem
      · cases o.vmMove i with
        | none => exact recorded_error mem
        | some region => exact recorded_ok (mem_append_left _ mem)
    · cases o.vmMove i with
      | none => exact recorded_error mem
      | some region => exact recorded_ok (mem_append_left _ (mem_append_left _ mem))
  | oolPorts address deallocate disposition objects =>
    have mem : e ∈ st.history ++ [.arrayLength objects.length (arrayLength objects.length)] := by
      rcases mem with mem | ⟨_, _, _, _, same, rfl⟩
      · exact mem_append_left _ mem
      · cases same
        exact mem_append_right _ (mem_singleton_self _)
    rw [copyinDescriptor]
    split
    · exact recorded_ok mem
    cases o.kalloc i with
    | none => exact recorded_error mem
    | some data =>
      have mem := mem_append_left [.kalloc data (arrayLength objects.length)] mem
      dsimp only
      split
      · exact recorded_error (mem_append_left _ mem)
      split
      · exact recorded_error (mem_append_left _ mem)
      have copying := copyinObjects_recorded (o := o) i disposition
        (arrayLength objects.length) [] st.circular objects (mem_append_left
          (if deallocate then
            [.vmDeallocate .user address.toNat (arrayLength objects.length).toNat]
          else []) mem)
      split
      · exact recorded_error (mem_append_left _ (copying.1 _ ‹_›))
      · exact recorded_ok (copying.2 _ ‹_›)
  | other type =>
    obtain mem := mem.resolve_right (by rintro ⟨_, _, _, _, same, -⟩; cases same)
    exact recorded_error mem

theorem copyinDescriptors_recorded {st : Copied} (ds : List (Word × Descriptor))
    (mem : e ∈ st.history) : e ∈ (copyinDescriptors o page m st ds).history := by
  induction ds generalizing st with
  | nil => exact mem
  | cons x rest ih =>
    obtain ⟨address, d⟩ := x
    have step := copyinDescriptor_recorded o page st.done.length
      { st with history := st.history ++ [.read address] } d (.inl (mem_append_left _ mem))
    rw [copyinDescriptors]
    cases outcome : copyinDescriptor o page st.done.length
        { st with history := st.history ++ [.read address] } d with
    | error failure => exact mem_append_left _ (step.1 _ outcome)
    | ok st' => exact ih (step.2 _ outcome)

/-- The outcomes when nothing fails. -/
def allSucceed : Outcomes :=
  ⟨fun _ => some 4096, fun _ _ => some 1#32, fun _ _ => false, fun _ => true, fun _ => some 1#32,
    fun _ => some 1#32, fun _ => true⟩

theorem copyinObjects_allSucceed (i : ℕ) (name : BitVec 8) (length : Word) (copied : List Slot)
    (circular : Bool) (history : List Event) (objects : List Slot) :
    ∃ c, copyinObjects allSucceed i name length copied circular history objects = .ok c := by
  induction objects generalizing copied circular history with
  | nil => exact ⟨_, rfl⟩
  | cons port rest ih =>
    rw [copyinObjects]
    split
    · exact ih _ _ _
    · exact ih _ _ _

theorem copyinDescriptor_allSucceed (page i : ℕ) (st : Copied) {d : Descriptor}
    (passable : Passable d) : ∃ st', copyinDescriptor allSucceed page i st d = .ok st' := by
  cases d with
  | port name disposition =>
    have any : portAny disposition = true := passable
    rw [copyinDescriptor, if_neg (not_not.mpr any)]
    split
    · exact ⟨_, rfl⟩
    · exact ⟨_, rfl⟩
  | outOfLine address size deallocate copy =>
    rw [copyinDescriptor]
    split
    · exact ⟨_, rfl⟩
    · split
      · exact ⟨_, rfl⟩
      · exact ⟨_, rfl⟩
  | oolPorts address deallocate disposition objects =>
    rw [copyinDescriptor]
    split
    · exact ⟨_, rfl⟩
    have any := passable.resolve_left ‹_›
    obtain ⟨c, copied⟩ := copyinObjects_allSucceed i disposition (arrayLength objects.length) []
      st.circular (st.history ++ [.arrayLength objects.length (arrayLength objects.length)] ++
        [.kalloc 1#32 (arrayLength objects.length)] ++
        if deallocate then
          [.vmDeallocate .user address.toNat (arrayLength objects.length).toNat]
        else []) objects
    simp only [allSucceed, any] at copied ⊢
    simp only [not_true_eq_false, if_false, copied]
    exact ⟨_, rfl⟩
  | other type => exact passable.elim

/-- With nothing failing, the second pass comes to every descriptor whose predecessors let it. -/
theorem copyinDescriptors_reaches {st : Copied} {before after : List (Word × Descriptor)}
    {address a : Word} {deallocate : Bool} {disposition : BitVec 8} {objects : List Slot}
    (passed : ∀ x ∈ before, Passable x.2) :
    .arrayLength objects.length (arrayLength objects.length) ∈
      (copyinDescriptors allSucceed page m st
        (before ++ (address, .oolPorts a deallocate disposition objects) :: after)).history := by
  induction before generalizing st with
  | nil =>
    have step := copyinDescriptor_recorded allSucceed page
      (e := .arrayLength objects.length (arrayLength objects.length)) st.done.length
      { st with history := st.history ++ [.read address] }
      (.oolPorts a deallocate disposition objects) (.inr ⟨_, _, _, _, rfl, rfl⟩)
    rw [nil_append, copyinDescriptors]
    cases outcome : copyinDescriptor allSucceed page st.done.length
        { st with history := st.history ++ [.read address] }
        (.oolPorts a deallocate disposition objects) with
    | error failure => exact mem_append_left _ (step.1 _ outcome)
    | ok st' => exact copyinDescriptors_recorded after (step.2 _ outcome)
  | cons x rest ih =>
    obtain ⟨other, d⟩ := x
    obtain ⟨st', copied⟩ := copyinDescriptor_allSucceed page st.done.length
      { st with history := st.history ++ [.read other] } (passed (other, d) mem_cons_self)
    rw [cons_append, copyinDescriptors]
    rw [copied]
    exact ih fun y mem => passed y (mem_cons_of_mem _ mem)

end Reaching

/-! ## When the copyin stays inside -/

section Main

variable {o : Outcomes} {page : ℕ} {m : Message}

theorem copyinDescriptor_code {i : ℕ} {st : Copied} {d : Descriptor} {code : MachMsgReturn}
    {history : List Event} (failed : copyinDescriptor o page i st d = .error (code, history)) :
    code ≠ machSendMsgTooSmall := by
  cases d with
  | port name disposition =>
    rw [copyinDescriptor] at failed
    split at failed
    · cases failed
      decide
    split at failed
    · cases failed
    · split at failed <;> cases failed
      decide
  | outOfLine address size deallocate copy =>
    rw [copyinDescriptor] at failed
    split at failed
    · cases failed
    split at failed
    · split at failed
      · cases failed
        decide
      · split at failed <;> cases failed
        decide
    · split at failed <;> cases failed
      decide
  | oolPorts address deallocate disposition objects =>
    rw [copyinDescriptor] at failed
    dsimp only at failed
    split at failed
    · cases failed
    split at failed
    · cases failed
      decide
    split at failed
    · cases failed
      decide
    split at failed
    · cases failed
      decide
    · split at failed <;> cases failed
      decide
  | other type =>
    cases failed
    decide

theorem copyinDescriptors_code {st : Copied} (ds : List (Word × Descriptor)) :
    (copyinDescriptors o page m st ds).code ≠ machSendMsgTooSmall := by
  induction ds generalizing st with
  | nil =>
    have success : machMsgSuccess ≠ machSendMsgTooSmall := by decide
    exact success
  | cons x rest ih =>
    obtain ⟨address, d⟩ := x
    rw [copyinDescriptors]
    cases outcome : copyinDescriptor o page st.done.length
        { st with history := st.history ++ [.read address] } d with
    | error failure => exact copyinDescriptor_code outcome
    | ok st' => exact ih

/-- Only the test of the count refuses a message as too small. -/
theorem copyinBody_code (accepted : ¬ m.tooSmall) :
    (copyinBody o page m).code ≠ machSendMsgTooSmall := by
  have type : machSendInvalidType ≠ machSendMsgTooSmall := by decide
  have kernel : machMsgVmKernel ≠ machSendMsgTooSmall := by decide
  rw [copyinBody, if_neg accepted]
  split
  · exact type
  split
  · split
    · exact kernel
    · exact copyinDescriptors_code _
  · exact copyinDescriptors_code _

theorem spaceNeeded_ok_iff (page needed : ℕ) (history : List Event) {ds : List (Word × Descriptor)} :
    (∃ c, spaceNeeded page needed history ds = .ok c) ↔ ∀ x ∈ ds, CopyOption x.2 := by
  induction ds generalizing needed history with
  | nil => exact ⟨fun _ => nofun, fun _ => ⟨_, rfl⟩⟩
  | cons x rest ih =>
    obtain ⟨address, d⟩ := x
    rw [forall_mem_cons]
    cases d with
    | outOfLine a size deallocate copy =>
      rw [spaceNeeded]
      by_cases bad : copy ≠ machMsgPhysicalCopy ∧ copy ≠ machMsgVirtualCopy
      · rw [if_pos bad]
        refine ⟨nofun, fun valid => ?_⟩
        rcases valid.1 with same | same
        · exact absurd same bad.1
        · exact absurd same bad.2
      · have option : CopyOption (.outOfLine a size deallocate copy) := by
          tauto
        rw [if_neg bad]
        split
        · exact (ih _ _).trans (and_iff_right option).symm
        · exact (ih _ _).trans (and_iff_right option).symm
    | port => exact (ih _ _).trans (and_iff_right trivial).symm
    | oolPorts => exact (ih _ _).trans (and_iff_right trivial).symm
    | other => exact (ih _ _).trans (and_iff_right trivial).symm

/-- The copyin of a body stays inside the message and its arrays exactly when the test does not let
a count through that the message has no room for, and no port array is come to whose length wraps.
-/
theorem copyinBody_staysInside_iff (page : ℕ) (m : PlacedMessage) :
    StaysInside page m.toMessage ↔ (m.tooSmall ∨ m.Fits) ∧
        (¬ m.tooSmall → (∀ x ∈ m.descriptors, CopyOption x.2) →
          SmallReached (m.descriptors.map (·.2))) := by
  constructor
  · intro inside
    refine ⟨?_, fun accepted options before d after same passed => ?_⟩
    · by_contra neither
      rw [not_or] at neither
      exact copyinBody_code neither.1 ((inside allSucceed).1 neither.2)
    cases d with
    | oolPorts a deallocate disposition objects =>
      obtain ⟨before', rest, split', rfl, same'⟩ := map_eq_append_iff.mp same
      obtain ⟨⟨address, d⟩, after', rfl, rfl, rfl⟩ := map_eq_cons_iff.mp same'
      have recorded : Event.arrayLength objects.length (arrayLength objects.length) ∈
          (copyinBody allSucceed page m.toMessage).history := by
        obtain ⟨⟨needed, history⟩, space⟩ := (spaceNeeded_ok_iff page 0 []).mpr options
        have passed' : ∀ x ∈ before', Passable x.2 :=
          fun x mem => passed x.2 (mem_map_of_mem mem)
        rw [copyinBody, if_neg accepted, space]
        dsimp only
        rw [split']
        split
        · exact copyinDescriptors_reaches passed'
        · exact copyinDescriptors_reaches passed'
      have whole : 4 * objects.length = (arrayLength objects.length).toNat :=
        (inside allSucceed).2 _ recorded
      rw [arrayLength, BitVec.toNat_ofNat] at whole
      rw [SmallCount, whole]
      exact Nat.mod_lt _ (by decide)
    | port => trivial
    | outOfLine => trivial
    | other => trivial
  · rintro ⟨checked, small⟩ o
    by_cases refused : m.tooSmall
    · rw [copyinBody, if_pos refused]
      exact ⟨fun _ => rfl, cleanPartial_inBounds _ _ _⟩
    have fits := checked.resolve_left refused
    have reads := Message.descriptors_inBounds m fits
    have first := spaceNeeded_inBounds page 0 (forall_mem_nil _) reads
    refine ⟨fun not => absurd fits not, ?_⟩
    rw [copyinBody, if_neg refused]
    cases space : spaceNeeded page 0 [] m.descriptors with
    | error history => exact inBounds_append (first.1 _ space) (cleanPartial_inBounds _ _ _)
    | ok c =>
      have reached := small refused ((spaceNeeded_ok_iff page 0 []).mp ⟨_, space⟩)
      have inside := first.2 _ space
      dsimp only
      split
      · split
        · exact inBounds_append inside (cleanPartial_inBounds _ _ _)
        · exact copyinDescriptors_inBounds
            (inBounds_append inside (inBounds_singleton trivial)) reads reached
      · exact copyinDescriptors_inBounds inside reads reached

/-- A message of 40 bytes, room for one descriptor, whose count is two. -/
def countOfTwo : PlacedMessage where
  header := 0x1000#32
  bits := 0x80000011#32
  size := 40#32
  remotePort := 0x2000#32
  localPort := 0#32
  descriptorCount := 2#32
  descriptorAt _ := .port (.name 0#32) machMsgTypePortSend
  whole := by decide
  room := by decide

theorem count_past_the_end : ¬ StaysInside 4096 countOfTwo.toMessage := by
  intro inside
  refine copyinBody_code (m := countOfTwo.toMessage) ?_ ((inside allSucceed).1 ?_)
  · decide
  · unfold Message.Fits
    decide

end Main

end Darwin.Ipc.Body
