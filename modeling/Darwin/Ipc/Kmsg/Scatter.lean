import Darwin.Ipc.Mqueue.Receive

/-!
# Scatter lists

`ipc_kmsg_check_scatter` pairs the out-of-line descriptors of a message with those of the receiver's
scatter list and refuses pairs that do not fit; `ipc_kmsg_copyout_body` pairs the lists again, by a
loop of its own, and overwrites the receiver's memory where the scatter list says so.  On a size
error the check may instead form a new scatter list in a buffer it allocates.

## Main results

* `copyout_overwrites_fit`: a successful check protects every overwriting
* `checkScatter_protects_iff`: the calls that also keep their writes inside the new list are those
  that form none
-/

namespace Darwin.Ipc

open List Option

/-! ## The walk of the copyout -/

/-- A descriptor of a message to be copied out, with the address of what it carries. -/
structure CarriedDescriptor extends Descriptor where
  address : BitVec 32
  deriving DecidableEq, Repr

/-- `SKIP_PORT_DESCRIPTORS`; the null marker is `none`. -/
def skipPortDescriptors : Option (List Descriptor) → Option (List Descriptor)
  | none => none
  | some ss =>
    match ss.dropWhile (fun d => d.type = machMsgPortDescriptor) with
    | [] => none
    | rest => some rest

/-- `INCREMENT_SCATTER`. -/
def incrementScatter (sstart : Option (List Descriptor)) : Option (List Descriptor) :=
  sstart.map List.tail

/-- The scatter descriptor that an out-of-line region is written over, if there is one. -/
def overwrittenBy : Option (List Descriptor) → Option Descriptor
  | some (scatter :: _) => if scatter.copy = machMsgOverwrite then some scatter else none
  | _ => none

/-- The out-of-line regions and port arrays that `ipc_kmsg_copyout_body` writes with
`MACH_MSG_OVERWRITE`, each with the scatter descriptor that says where.  A descriptor of another
type stops the kernel. -/
def copyoutOverwrites :
    List CarriedDescriptor → Option (List Descriptor) → List (CarriedDescriptor × Descriptor)
  | [], _ => []
  | dsc :: rest, sstart =>
    if dsc.type = machMsgPortDescriptor then copyoutOverwrites rest sstart
    else
      let sstart := skipPortDescriptors sstart
      let next := copyoutOverwrites rest (incrementScatter sstart)
      let written := (overwrittenBy sstart).toList.map fun scatter => (dsc, scatter)
      if dsc.type = machMsgOolDescriptor then
        if dsc.address ≠ 0 then written ++ next else next
      else if dsc.type = machMsgOolPortsDescriptor then
        if dsc.size * 4 ≠ 0 then written ++ next else next
      else []

/-- An overwriting fits its scatter descriptor: same type, and room for the data. -/
def Fits (pair : CarriedDescriptor × Descriptor) : Prop :=
  pair.2.type = pair.1.type ∧ pair.1.size ≤ pair.2.size

theorem copyoutOverwrites_none (gather : List CarriedDescriptor) :
    copyoutOverwrites gather none = [] := by
  induction gather with
  | nil => rfl
  | cons dsc rest ih =>
    simp only [copyoutOverwrites, skipPortDescriptors, incrementScatter, map_none, ih,
      overwrittenBy, toList_none, map_nil, append_nil]
    split_ifs <;> rfl

theorem copyoutOverwrites_nil (gather : List CarriedDescriptor) :
    copyoutOverwrites gather (some []) = [] := by
  induction gather with
  | nil => rfl
  | cons dsc rest ih =>
    simp only [copyoutOverwrites, skipPortDescriptors, dropWhile_nil, incrementScatter,
      map_none, copyoutOverwrites_none, ih, overwrittenBy, toList_none, map_nil,
      append_nil]
    split_ifs <;> rfl

section Protection

variable {gather : List CarriedDescriptor} {large empty : Bool}

/-- The type a scatter descriptor must have to be paired with a descriptor of the message. -/
def wantedType (gather : Descriptor) : BitVec 8 :=
  if gather.type = machMsgOolDescriptor then machMsgOolDescriptor else machMsgOolPortsDescriptor

/-- A pair whose scatter descriptor is to be written over by more data than it has room for. -/
def TooSmall (gather scatter : Descriptor) : Prop :=
  scatter.copy = machMsgOverwrite ∧ gather.size > scatter.size

instance (gather scatter : Descriptor) : Decidable (TooSmall gather scatter) :=
  inferInstanceAs (Decidable (_ ∧ _))

/-- One pairing of the check's loop. -/
theorem scatterLoop_cons {dsc : Descriptor} {rest ss : List Descriptor} {sizeError : Bool}
    (region : dsc.type ≠ machMsgPortDescriptor) :
    scatterLoop large false (dsc :: rest) ss sizeError =
      match ss.dropWhile (fun d => d.type = machMsgPortDescriptor) with
      | [] => .ok sizeError
      | scatter :: ss =>
        if scatter.type ≠ wantedType dsc then .error machRcvInvalidType
        else if TooSmall dsc scatter then
          if large then scatterLoop large false rest ss true else .error machRcvScatterSmall
        else scatterLoop large false rest ss sizeError := by
  rw [scatterLoop, if_neg region]
  cases found : ss.dropWhile (fun d => d.type = machMsgPortDescriptor) with
  | nil => rfl
  | cons scatter ss' =>
    unfold wantedType TooSmall
    by_cases ool : dsc.type = machMsgOolDescriptor
    · simp only [if_pos ool]
      rfl
    · simp only [if_neg ool]
      rfl

/-- A scatter list without descriptors is a size error as soon as there is data. -/
theorem scatterLoop_empty (gs : List Descriptor) (ss : List Descriptor) (sizeError : Bool) :
    scatterLoop large true gs ss sizeError =
      if ∃ dsc ∈ gs, dsc.type ≠ machMsgPortDescriptor then
        if large then .ok true else .error machRcvScatterSmall
      else .ok sizeError := by
  induction gs with
  | nil => simp [scatterLoop]
  | cons dsc rest ih =>
    by_cases port : dsc.type = machMsgPortDescriptor
    · rw [scatterLoop, if_pos port, ih]
      simp [port]
    · rw [scatterLoop, if_neg port]
      simp [port]

/-- A size error once found is not forgotten. -/
theorem scatterLoop_true (gs ss : List Descriptor) :
    scatterLoop large false gs ss true ≠ .ok false := by
  induction gs generalizing ss with
  | nil => simp [scatterLoop]
  | cons dsc rest ih =>
    by_cases port : dsc.type = machMsgPortDescriptor
    · rw [scatterLoop, if_pos port]
      exact ih ss
    rw [scatterLoop_cons port]
    split
    · simp
    · split_ifs <;> first | exact ih _ | simp

/-- The loops of the check and of the copyout stay in step: where the check finds nothing wrong, the
copyout pairs every region that it overwrites with a descriptor that has been compared with it. -/
theorem overwrites_of_scatterLoop (ss : List Descriptor)
    (checked : scatterLoop large false (gather.map (·.toDescriptor)) ss false = .ok false) :
    ∀ pair ∈ copyoutOverwrites gather (some ss), Fits pair := by
  induction gather generalizing ss with
  | nil => simp [copyoutOverwrites]
  | cons dsc rest ih =>
    rw [map_cons] at checked
    rw [copyoutOverwrites]
    by_cases port : dsc.type = machMsgPortDescriptor
    · rw [scatterLoop, if_pos port] at checked
      rw [if_pos port]
      exact ih ss checked
    rw [scatterLoop_cons port] at checked
    rw [if_neg port]
    unfold skipPortDescriptors
    dsimp only
    split at checked
    · rename_i ended
      -- both loops have run off the end of the scatter list
      simp [ended, overwrittenBy, incrementScatter, copyoutOverwrites_none]
    rename_i scatter ss' found
    rw [found]
    split_ifs at checked with type small
    · exact absurd checked (scatterLoop_true _ _)
    have type : scatter.type = wantedType dsc.toDescriptor := not_not.mp type
    have later := ih ss' checked
    have written (known : wantedType dsc.toDescriptor = dsc.type) :
        ∀ pair ∈ (overwrittenBy (some (scatter :: ss'))).toList.map (fun scatter => (dsc, scatter)),
          Fits pair := by
      intro pair mem
      rw [overwrittenBy] at mem
      split_ifs at mem with overwrite
      · simp only [toList_some, map_cons, map_nil, mem_singleton] at mem
        subst mem
        exact ⟨type.trans known, BitVec.not_lt.mp fun more => small ⟨overwrite, more⟩⟩
      · simp at mem
    have both (known : wantedType dsc.toDescriptor = dsc.type) :
        ∀ pair ∈ (overwrittenBy (some (scatter :: ss'))).toList.map (fun scatter => (dsc, scatter)) ++
          copyoutOverwrites rest (some ss'), Fits pair := by
      intro pair mem
      rcases mem_append.mp mem with mem | mem
      · exact written known pair mem
      · exact later pair mem
    by_cases ool : dsc.type = machMsgOolDescriptor
    · rw [if_pos ool]
      have known : wantedType dsc.toDescriptor = dsc.type := by rw [wantedType, if_pos ool, ool]
      split
      · exact both known
      · exact later
    rw [if_neg ool]
    by_cases ports : dsc.type = machMsgOolPortsDescriptor
    · rw [if_pos ports]
      have known : wantedType dsc.toDescriptor = dsc.type := by rw [wantedType, if_neg ool, ports]
      split
      · exact both known
      · exact later
    · rw [if_neg ports]
      simp

end Protection

/-! ## The new scatter list -/

/-- The extents that `ipc_kmsg_check_scatter` writes in a new scatter list, by their offset from its
start: the header, the descriptor count, and of each descriptor the type, which is its last byte,
and the size of what is out of line. -/
def newListWrites (gather : List Descriptor) : List (ℕ × ℕ) :=
  (28, 24) :: (52, 4) :: gather.zipIdx.flatMap fun (dsc, i) =>
    (56 + 12 * i + 11, 1) ::
      if dsc.type = machMsgOolDescriptor ∨ dsc.type = machMsgOolPortsDescriptor then
        [(56 + 12 * i + 4, 4)]
      else []

/-- The bytes that `ikm_alloc` asks for: the new list and `IKM_OVERHEAD`. -/
def newListRoom (kmsg : Kmsg) : ℕ := (newListSize kmsg + 28#32).toNat

/-- Whether `ipc_kmsg_check_scatter` forms a new scatter list. -/
def formsNewList (k : Kernel) (kmsg : Kmsg) (option : BitVec 32) (list : List Descriptor) : Bool :=
  match scatterLoop (hasFlag option machRcvLarge) list.isEmpty kmsg.descriptors list false with
  | .ok true => (k.ikmAlloc (newListSize kmsg)).isSome
  | _ => false

/-- The check protects the copyout and writes only in the buffer it allocated. -/
structure ScatterSafe (k : Kernel) (bits size option : BitVec 32) (gather : List CarriedDescriptor)
    (list : List Descriptor) : Prop where
  protects : (checkScatter k ⟨bits, size, gather.map (·.toDescriptor)⟩ option list).1 =
      machMsgSuccess →
    ∀ pair ∈ copyoutOverwrites gather (some list), Fits pair
  inside : formsNewList k ⟨bits, size, gather.map (·.toDescriptor)⟩ option list = true →
    ∀ extent ∈ newListWrites (gather.map (·.toDescriptor)),
      extent.1 + extent.2 ≤ newListRoom ⟨bits, size, gather.map (·.toDescriptor)⟩

/-- The out-of-line descriptors of a message paired in order with those of a scatter list. -/
def regionPairs (gather list : List Descriptor) : List (Descriptor × Descriptor) :=
  (gather.filter fun d => !decide (d.type = machMsgPortDescriptor)).zip
    (list.filter fun d => !decide (d.type = machMsgPortDescriptor))

/-- A size error of a receiver that asked to be told how large the message is: the scatter list is
empty and the message carries data, or the paired types agree and some pair is too small. -/
def SizeError (option : BitVec 32) (gather list : List Descriptor) : Prop :=
  hasFlag option machRcvLarge = true ∧
    if list = [] then ∃ dsc ∈ gather, dsc.type ≠ machMsgPortDescriptor
    else (∀ pair ∈ regionPairs gather list, pair.2.type = wantedType pair.1) ∧
      ∃ pair ∈ regionPairs gather list, TooSmall pair.1 pair.2

section Exactness

theorem filter_dropWhile {p : Descriptor → Bool} (ss : List Descriptor) :
    ss.filter (fun d => !p d) = (ss.dropWhile p).filter fun d => !p d := by
  induction ss with
  | nil => rfl
  | cons d ss ih =>
    by_cases skip : p d = true
    · rw [dropWhile_cons_of_pos skip, filter_cons_of_neg (by simp [skip]), ih]
    · rw [dropWhile_cons_of_neg skip]

theorem regionPairs_port {dsc : Descriptor} (gather list : List Descriptor)
    (port : dsc.type = machMsgPortDescriptor) :
    regionPairs (dsc :: gather) list = regionPairs gather list := by
  rw [regionPairs, filter_cons_of_neg (by simp [port]), regionPairs]

theorem regionPairs_region {dsc : Descriptor} (gather list : List Descriptor)
    (region : dsc.type ≠ machMsgPortDescriptor) :
    regionPairs (dsc :: gather) list =
      match list.dropWhile (fun d => d.type = machMsgPortDescriptor) with
      | [] => []
      | scatter :: rest => (dsc, scatter) :: regionPairs gather rest := by
  rw [regionPairs, filter_cons_of_pos (by simp [region]), filter_dropWhile list]
  cases found : list.dropWhile (fun d => d.type = machMsgPortDescriptor) with
  | nil => rfl
  | cons scatter rest =>
    have here : scatter.type ≠ machMsgPortDescriptor := by
      have head := List.head?_dropWhile_not
        (fun d : Descriptor => decide (d.type = machMsgPortDescriptor)) list
      simpa [found] using head
    rw [filter_cons_of_pos (by simp [here])]
    rfl

/-- What the check's loop computes for a receiver that asked to be told the size. -/
theorem scatterLoop_large (gs ss : List Descriptor) (sizeError : Bool) :
    scatterLoop true false gs ss sizeError = .ok true ↔
      (∀ pair ∈ regionPairs gs ss, pair.2.type = wantedType pair.1) ∧
        (sizeError = true ∨ ∃ pair ∈ regionPairs gs ss, TooSmall pair.1 pair.2) := by
  induction gs generalizing ss sizeError with
  | nil => simp [scatterLoop, regionPairs]
  | cons dsc rest ih =>
    by_cases port : dsc.type = machMsgPortDescriptor
    · rw [scatterLoop, if_pos port, ih, regionPairs_port _ _ port]
    rw [scatterLoop_cons port, regionPairs_region _ _ port]
    cases ss.dropWhile (fun d => d.type = machMsgPortDescriptor) with
    | nil => simp
    | cons scatter ss' =>
      by_cases type : scatter.type = wantedType dsc
      · by_cases small : TooSmall dsc scatter <;> simp [type, small, ih]
      · simp [type]

/-- Without `MACH_RCV_LARGE` a size error ends the loop. -/
theorem scatterLoop_small (empty : Bool) (gs ss : List Descriptor) :
    scatterLoop false empty gs ss false ≠ .ok true := by
  cases empty with
  | true =>
    rw [scatterLoop_empty]
    by_cases data : ∃ dsc ∈ gs, dsc.type ≠ machMsgPortDescriptor
    · rw [if_pos data]
      simp
    · rw [if_neg data]
      simp
  | false =>
    induction gs generalizing ss with
    | nil => simp [scatterLoop]
    | cons dsc rest ih =>
      by_cases port : dsc.type = machMsgPortDescriptor
      · rw [scatterLoop, if_pos port]
        exact ih ss
      rw [scatterLoop_cons port]
      split
      · simp
      · simp only [Bool.false_eq_true, if_false]
        split_ifs <;> first | exact ih _ | simp

/-- The codes returned from inside the loop are errors. -/
theorem scatterLoop_not_error {large empty sizeError : Bool} {gs ss : List Descriptor}
    {code : MachMsgReturn} (failed : scatterLoop large empty gs ss sizeError = .error code) :
    code ≠ machMsgSuccess := by
  cases empty with
  | true =>
    rw [scatterLoop_empty] at failed
    split_ifs at failed
    cases failed
    decide
  | false =>
    induction gs generalizing ss sizeError with
    | nil => simp [scatterLoop] at failed
    | cons dsc rest ih =>
      by_cases port : dsc.type = machMsgPortDescriptor
      · rw [scatterLoop, if_pos port] at failed
        exact ih failed
      rw [scatterLoop_cons port] at failed
      split at failed
      · cases failed
      split_ifs at failed
      · cases failed
        decide
      · exact ih failed
      · cases failed
        decide
      · exact ih failed

variable {k : Kernel} {bits size option : BitVec 32} {gather : List CarriedDescriptor}
  {list : List Descriptor}

/-- A successful check protects every overwriting of the copyout. -/
theorem copyout_overwrites_fit
    (checked : (checkScatter k ⟨bits, size, gather.map (·.toDescriptor)⟩ option list).1 =
      machMsgSuccess) :
    ∀ pair ∈ copyoutOverwrites gather (some list), Fits pair := by
  unfold checkScatter at checked
  cases outcome : scatterLoop (hasFlag option machRcvLarge) list.isEmpty
      (gather.map (·.toDescriptor)) list false with
  | error code =>
    rw [outcome] at checked
    exact absurd checked (scatterLoop_not_error outcome)
  | ok sizeError =>
    rw [outcome] at checked
    cases sizeError with
    | true =>
      dsimp only at checked
      split at checked
      · exact absurd checked (show machMsgVmKernel ||| machRcvBodyError ≠ machMsgSuccess by decide)
      · exact absurd checked (show machRcvScatterSmall ≠ machMsgSuccess by decide)
    | false =>
      cases list with
      | cons scatter rest => exact overwrites_of_scatterLoop _ outcome
      | nil =>
        rw [copyoutOverwrites_nil]
        simp

theorem formsNewList_iff (gs : List Descriptor) :
    formsNewList k ⟨bits, size, gs⟩ option list = true ↔
      SizeError option gs list ∧ (k.ikmAlloc (newListSize ⟨bits, size, gs⟩)).isSome = true := by
  have found : scatterLoop (hasFlag option machRcvLarge) list.isEmpty gs list false = .ok true ↔
      SizeError option gs list := by
    unfold SizeError
    cases large : hasFlag option machRcvLarge with
    | false => simp [scatterLoop_small]
    | true =>
      cases list with
      | nil =>
        rw [isEmpty_nil, scatterLoop_empty, if_pos rfl]
        by_cases data : ∃ dsc ∈ gs, dsc.type ≠ machMsgPortDescriptor
        · rw [if_pos data]
          simpa using data
        · rw [if_neg data]
          simpa using data
      | cons scatter rest =>
        rw [isEmpty_cons, scatterLoop_large, if_neg (cons_ne_nil _ _)]
        simp
  rw [← found]
  unfold formsNewList
  split
  · rename_i outcome
    simp [outcome]
  · rename_i other
    simp only [Bool.false_eq_true, false_iff, not_and]
    exact fun formed => (other formed).elim

/-- A new list is always left: its header is not in the size it is allocated with. -/
theorem newListWrites_outside (bits size : BitVec 32) (gs : List Descriptor) (data : gs ≠ []) :
    ∃ extent ∈ newListWrites gs, newListRoom ⟨bits, size, gs⟩ < extent.1 + extent.2 := by
  have last : (gs.getLast data, gs.length - 1) ∈ gs.zipIdx := by
    rw [mk_mem_zipIdx_iff_getElem?, getLast_eq_getElem]
    exact List.getElem?_eq_getElem _
  refine ⟨(56 + 12 * (gs.length - 1) + 11, 1), ?_, ?_⟩
  · refine mem_cons_of_mem _ (mem_cons_of_mem _ (mem_flatMap.mpr ⟨_, last, ?_⟩))
    exact mem_cons_self
  have some' : 0 < gs.length := length_pos_iff.mpr data
  have room : newListRoom ⟨bits, size, gs⟩ ≤ 32 + 12 * gs.length := by
    rw [newListRoom, newListSize, BitVec.toNat_add, BitVec.toNat_ofNat, BitVec.toNat_ofNat]
    dsimp only
    omega
  omega

/-- A size error needs a message that carries something. -/
theorem SizeError.ne_nil {gs : List Descriptor} (error : SizeError option gs list) : gs ≠ [] := by
  rintro rfl
  obtain ⟨-, error⟩ := error
  split_ifs at error
  · simp at error
  · simp [regionPairs] at error

/-- **What `ipc_kmsg_check_scatter` protects.**  For any lists a successful check protects every
overwriting of the copyout; the check also stays inside what it allocates exactly when it finds no
size error for a receiver with `MACH_RCV_LARGE`, or has no memory for a new list. -/
theorem checkScatter_protects_iff (k : Kernel) (bits size option : BitVec 32)
    (gather : List CarriedDescriptor) (list : List Descriptor) :
    ScatterSafe k bits size option gather list ↔
      ¬ (SizeError option (gather.map (·.toDescriptor)) list ∧
        (k.ikmAlloc (newListSize ⟨bits, size, gather.map (·.toDescriptor)⟩)).isSome = true) := by
  rw [← formsNewList_iff]
  constructor
  · intro safe formed
    obtain ⟨extent, mem, outside⟩ := newListWrites_outside bits size _
      ((formsNewList_iff _).mp formed).1.ne_nil
    exact absurd (safe.inside formed extent mem) (not_le.mpr outside)
  · exact fun quiet => ⟨copyout_overwrites_fit, fun formed => absurd formed quiet⟩

/-- A message with one region of eight bytes, received with `MACH_RCV_LARGE` and an empty scatter
list: the descriptor of the new list is written beyond the 44 bytes allocated. -/
theorem new_list_overruns :
    ¬ ScatterSafe ⟨fun _ => 0#32, fun _ => some fun _ => ⟨0#8, 0#8, 0#32⟩⟩ 0#32 40#32 machRcvLarge
      [⟨⟨machMsgOolDescriptor, 1#8, 8#32⟩, 0x1000#32⟩] [] := by
  intro safe
  have inside := safe.inside (by decide) (67, 1) (by decide)
  exact absurd inside (by decide)

end Exactness

end Darwin.Ipc
