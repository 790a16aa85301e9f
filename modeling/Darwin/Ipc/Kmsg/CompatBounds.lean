import Darwin.Ipc.Kmsg.Compat

/-!
# The bounds of typed bodies

The copyin of an old message stays below its end and inside the data of each item, and the two later
walks over the body visit the same items with the same ports, exactly when two kinds of items do not
occur: a port item so large that the length of its data wraps, and an item that is no port item to
the copyin but is one to the later walks.

## Main results

* `copyinItem_inside`, `copyinItem_frame`: what one item accesses and changes
* `copyinLoop_good`: the loop over items of neither kind
* `wellParsed_iff`: when a body is parsed within its bounds
* `ports_past_the_end`: an array of ports whose length wraps to nothing
-/

namespace Darwin.Ipc.Compat

open List Option
open Function (update update_of_ne)

/-! ## Items -/

/-- An access below the end of a body of `stop` bytes, or inside data of the length computed. -/
def Inside (stop : ℕ) : Access → Prop
  | .read word bytes => 4 * word + bytes ≤ stop
  | .object i length => 4 * (i + 1) ≤ length

/-- The checks of the copyin on an item. -/
def ItemOk (stop : ℕ) (t : TypeDescriptor) : Prop :=
  4 * t.data ≤ stop ∧ (t.oldPort → t.size = 32) ∧
    4 * t.data + (if t.isInline then t.amount else 4) ≤ stop

instance (stop : ℕ) (t : TypeDescriptor) : Decidable (ItemOk stop t) :=
  inferInstanceAs (Decidable (_ ∧ _))

/-- A port item has a length that does not wrap. -/
def NoWrap (t : TypeDescriptor) : Prop := t.oldPort → t.number < 2 ^ 27

/-- The later walks take the item for a port item only where the copyin does, or where it has no
ports. -/
def WellNamed (t : TypeDescriptor) : Prop :=
  t.machPort → t.number = 0 ∧ copyoutTypeCompat t.name ≠ none

/-- The items of a body of `stop` bytes, up to one that fails a check. -/
def items (stop : ℕ) (mem : Memory) : ℕ → ℕ → List TypeDescriptor
  | 0, _ => []
  | fuel + 1, p =>
    if 4 * p < stop then
      readType mem p ::
        if ItemOk stop (readType mem p) then items stop mem fuel (readType mem p).next else []
    else []

section Reading

variable {mem mem' : Memory} {p : ℕ} {t : TypeDescriptor}

theorem data_gt (mem : Memory) (p : ℕ) : p < (readType mem p).data := by
  unfold readType
  dsimp only
  split <;> dsimp only <;> omega

theorem next_gt (mem : Memory) (p : ℕ) : p < (readType mem p).next := by
  have data := data_gt mem p
  unfold TypeDescriptor.next
  split <;> omega

theorem data_longform (mem : Memory) (p : ℕ) :
    (readType mem p).data = if (readType mem p).longform then p + 3 else p + 1 := by
  unfold readType
  dsimp only
  split <;> rfl

/-- A type descriptor depends on its own words. -/
theorem readType_congr (same : ∀ x, p ≤ x → x < (readType mem p).data → mem' x = mem x) :
    readType mem' p = readType mem p := by
  have first := same p (Nat.le_refl p) (data_gt mem p)
  rw [data_longform] at same
  unfold readType at same ⊢
  dsimp only at same ⊢
  rw [first]
  split
  · rename_i long
    rw [if_pos long] at same
    rw [same (p + 1) (by omega) (by simp), same (p + 2) (by omega) (by simp)]
  · rfl

/-- Clearing the unused fields changes none that is used. -/
theorem readType_clearUnused (mem : Memory) (p : ℕ) :
    readType (clearUnused mem p (readType mem p).longform) p = readType mem p := by
  by_cases long : mem p / 2 ^ 29 % 2 = 1
  · have longform : (readType mem p).longform = true := by
      simp only [readType, if_pos long]
    have word : clearUnused mem p true p = mem p % 2 ^ 31 / 2 ^ 28 * 2 ^ 28 := by
      simp [clearUnused]
    have second : clearUnused mem p true (p + 1) = mem (p + 1) := by
      simp [clearUnused]
    have third : clearUnused mem p true (p + 2) = mem (p + 2) := by
      simp [clearUnused]
    rw [longform]
    simp only [readType, word, second, third]
    rw [if_pos long, if_pos (by omega), TypeDescriptor.mk.injEq]
    exact ⟨decide_eq_decide.mpr (by omega), rfl, decide_eq_decide.mpr (by omega), rfl, rfl, rfl,
      rfl⟩
  · have longform : (readType mem p).longform = false := by
      simp only [readType, if_neg long]
    have word : clearUnused mem p false p = mem p % 2 ^ 31 := by
      simp [clearUnused]
    rw [longform]
    simp only [readType, word]
    rw [if_neg long, if_neg (by omega), TypeDescriptor.mk.injEq]
    exact ⟨decide_eq_decide.mpr (by omega), rfl, decide_eq_decide.mpr (by omega), by omega,
      by omega, by omega, rfl⟩

/-- Setting the name changes no other field. -/
theorem readType_setName (mem : Memory) (p : ℕ) {name : ℕ} (small : name < 2 ^ 8) :
    readType (setName mem p (readType mem p).longform name) p =
      { readType mem p with name := name } := by
  by_cases long : mem p / 2 ^ 29 % 2 = 1
  · have longform : (readType mem p).longform = true := by
      simp only [readType, if_pos long]
    have word : setName mem p true name p = mem p := by simp [setName]
    have second : setName mem p true name (p + 1) = mem (p + 1) / 2 ^ 16 * 2 ^ 16 + name := by
      simp [setName]
    have third : setName mem p true name (p + 2) = mem (p + 2) := by simp [setName]
    rw [longform]
    simp only [readType, word, second, third]
    rw [if_pos long, if_pos long, TypeDescriptor.mk.injEq]
    exact ⟨rfl, rfl, rfl, by omega, (by dsimp only; omega), rfl, rfl⟩
  · have longform : (readType mem p).longform = false := by
      simp only [readType, if_neg long]
    have word : setName mem p false name p = mem p / 2 ^ 8 * 2 ^ 8 + name := by simp [setName]
    rw [longform]
    simp only [readType, word]
    rw [if_neg long, if_neg (by omega), TypeDescriptor.mk.injEq]
    exact ⟨decide_eq_decide.mpr (by omega), rfl, decide_eq_decide.mpr (by omega), by omega,
      (by dsimp only; omega), (by dsimp only; omega), rfl⟩

theorem clearUnused_frame (mem : Memory) (p : ℕ) (longform : Bool) {x : ℕ} (other : x ≠ p) :
    clearUnused mem p longform x = mem x := update_of_ne other _ _

theorem setName_frame (mem : Memory) (p : ℕ) (longform : Bool) (name : ℕ) {x : ℕ}
    (other : x < p ∨ (if longform then p + 3 else p + 1) ≤ x) :
    setName mem p longform name x = mem x := by
  cases longform with
  | true => exact update_of_ne (by simp at other; omega) _ _
  | false => exact update_of_ne (by simp at other; omega) _ _

end Reading

/-! ## What one item accesses and changes -/

section Item

variable {o : Outcomes} {stop : ℕ} {mem mem' : Memory} {p : ℕ} {t : TypeDescriptor}

theorem amount_le (t : TypeDescriptor) : t.length ≤ t.amount := by
  unfold TypeDescriptor.amount
  omega

/-- The length of a port item that does not wrap is that of its ports. -/
theorem length_ports (size : t.size = 32) (small : t.number < 2 ^ 27) :
    t.length = 4 * t.number := by
  unfold TypeDescriptor.length
  rw [size, Nat.mod_eq_of_lt (by omega)]
  omega

theorem copyinObjects_inside {j toGo : ℕ} (length : 4 * (j + toGo) ≤ t.length)
    (room : t.isInline → 4 * (t.data + j + toGo) ≤ stop) :
    ∀ x ∈ (copyinObjects o t j toGo mem).2, Inside stop x := by
  induction toGo generalizing j mem with
  | zero => nofun
  | succ toGo ih =>
    have next : ∀ memory, ∀ x ∈ (copyinObjects o t (j + 1) toGo memory).2, Inside stop x :=
      fun memory => ih (by omega) fun inline => by have := room inline; omega
    intro x there
    rw [copyinObjects] at there
    rcases mem_append.mp there with here | later
    · rw [objectAccesses] at here
      split at here
      · rename_i inline
        have := room inline
        rcases mem_pair.mp here with rfl | rfl
        · exact (by omega : 4 * (j + 1) ≤ t.length)
        · exact (by omega : 4 * (t.data + j) + 4 ≤ stop)
      · rw [mem_singleton.mp here]
        exact (by omega : 4 * (j + 1) ≤ t.length)
    · split at later
      · exact next _ x later
      · split at later
        · cases later
        · exact next _ x later

theorem copyinObjects_frame {j toGo : ℕ}
    (copied : (copyinObjects o t j toGo mem).1 = some mem') {x : ℕ}
    (outside : t.isInline → x < t.data + j ∨ t.data + j + toGo ≤ x) : mem' x = mem x := by
  induction toGo generalizing j mem with
  | zero => rw [← some.inj copied]
  | succ toGo ih =>
    rw [copyinObjects] at copied
    dsimp only at copied
    have outside' : t.isInline → x < t.data + (j + 1) ∨ t.data + (j + 1) + toGo ≤ x :=
      fun inline => by have := outside inline; omega
    split at copied
    · exact ih copied outside'
    split at copied
    · cases copied
    rw [ih copied outside', setObject]
    split
    · rename_i inline
      have := outside inline
      exact update_of_ne (by omega) _ _
    · rfl

theorem placeData_inside (begin' : 4 * t.data ≤ stop) :
    ∀ x ∈ (placeData o stop mem t).2, Inside stop x := by
  intro x there
  rw [placeData] at there
  split at there
  · split at there <;> cases there
  split at there
  · cases there
  have room : 4 * t.data + 4 ≤ stop := by omega
  split at there <;>
  · rw [mem_singleton.mp there]
    exact room

theorem placeData_ok (begin' : 4 * t.data ≤ stop) (placed : (placeData o stop mem t).1 = .ok mem') :
    4 * t.data + (if t.isInline then t.amount else 4) ≤ stop ∧
      ∀ x, t.isInline ∨ x ≠ t.data → mem' x = mem x := by
  rw [placeData] at placed
  split at placed
  · rename_i inline
    rw [if_pos inline]
    split at placed
    · cases placed
    · rw [← Except.ok.inj placed]
      exact ⟨by omega, fun x _ => rfl⟩
  · rename_i inline
    rw [if_neg inline]
    split at placed
    · cases placed
    split at placed
    · cases placed
    · rw [← Except.ok.inj placed]
      exact ⟨by omega, fun x other => update_of_ne (other.resolve_left inline) _ _⟩

theorem copyinType_small (name : ℕ) : copyinType name < 2 ^ 8 := by
  unfold copyinType
  split <;> omega

/-- The words of an item end where the next one begins. -/
theorem next_ge (t : TypeDescriptor) :
    t.data + (if t.isInline then t.amount / 4 else 1) = t.next := by
  unfold TypeDescriptor.next
  split <;> rfl

/-- What an item accesses is inside, if its length does not wrap. -/
theorem copyinItem_inside (small : ItemOk stop (readType mem p) → NoWrap (readType mem p)) :
    ∀ x ∈ (copyinItem o stop mem p).2, Inside stop x := by
  intro x present
  have data := data_longform mem p
  rw [copyinItem] at present
  split at present
  · cases present
  rename_i first
  have read : Inside stop (.read p 4) := (by omega : 4 * p + 4 ≤ stop)
  dsimp only at present
  split at present
  · rw [mem_singleton.mp present]
    exact read
  rename_i second
  -- the two tests of the header leave room for the whole descriptor
  have begin' : 4 * (readType mem p).data ≤ stop := by
    rw [not_and] at second
    rw [data]
    split
    · rename_i long
      have := second long
      omega
    · omega
  have read' : Inside stop (.read p (4 * ((readType mem p).data - p))) := by
    exact (by omega : 4 * p + 4 * ((readType mem p).data - p) ≤ stop)
  have reads : ∀ x ∈ [Access.read p 4, .read p (4 * ((readType mem p).data - p))],
      Inside stop x := by
    intro x there
    rcases mem_pair.mp there with rfl | rfl
    · exact read
    · exact read'
  split at present
  · exact reads x present
  rename_i type
  have size : (readType mem p).oldPort → (readType mem p).size = 32 := by
    intro port
    by_contra other
    exact type ⟨port, other⟩
  split at present
  · rename_i failure more placed
    rcases mem_append.mp present with there | there
    · exact reads x there
    · exact placeData_inside begin' x (by rw [placed]; exact there)
  · rename_i memory more placed
    have ok := (placeData_ok begin' (congrArg Prod.fst placed)).1
    rcases mem_append.mp present with there | there
    · rcases mem_append.mp there with there | there
      · exact reads x there
      · exact placeData_inside begin' x (by rw [placed]; exact there)
    rw [copyinPorts] at there
    split at there
    · rename_i port
      -- only here the number of ports counts, not the length
      have few := small ⟨begin', size, ok⟩ port
      have length := length_ports (size port) few
      have inside : ∀ x ∈ (copyinObjects o (readType mem p) 0 (readType mem p).number
          (setName memory p (readType mem p).longform (copyinType (readType mem p).name))).2,
          Inside stop x := by
        refine copyinObjects_inside (by omega) fun inline => ?_
        rw [if_pos inline] at ok
        have := amount_le (readType mem p)
        omega
      split at there <;>
      · rename_i found
        rw [found] at inside
        exact inside x there
    · cases there

/-- What an item that is copied in leaves: its checks hold, the words around it are unchanged, and
of its type descriptor only the name of a port type has changed. -/
theorem copyinItem_frame (copied : (copyinItem o stop mem p).1 = .ok mem')
    (small : ItemOk stop (readType mem p) → NoWrap (readType mem p)) :
    ItemOk stop (readType mem p) ∧ (∀ x, x < p ∨ (readType mem p).next ≤ x → mem' x = mem x) ∧
      readType mem' p = { readType mem p with
        name := if (readType mem p).oldPort then copyinType (readType mem p).name
          else (readType mem p).name } := by
  have data := data_longform mem p
  have after := data_gt mem p
  rw [copyinItem] at copied
  split at copied
  · cases copied
  dsimp only at copied
  split at copied
  · cases copied
  rename_i first second
  have begin' : 4 * (readType mem p).data ≤ stop := by
    rw [not_and] at second
    rw [data]
    split
    · rename_i long
      have := second long
      omega
    · omega
  split at copied
  · cases copied
  rename_i type
  have size : (readType mem p).oldPort → (readType mem p).size = 32 := by
    intro port
    by_contra other
    exact type ⟨port, other⟩
  split at copied
  · cases copied
  rename_i memory more placed
  obtain ⟨room, same⟩ := placeData_ok begin' (congrArg Prod.fst placed)
  have ok : ItemOk stop (readType mem p) := ⟨begin', size, room⟩
  have next := next_ge (readType mem p)
  -- the descriptor after its data has been placed
  have cleared : ∀ x, x < p ∨ (readType mem p).next ≤ x → memory x = mem x := by
    intro x outside
    rw [same x, clearUnused_frame]
    · omega
    by_cases inline : (readType mem p).isInline = true
    · exact .inl inline
    · rw [if_neg inline] at next
      exact .inr (by omega)
  have described : readType memory p = readType mem p := by
    rw [← readType_clearUnused mem p] at after ⊢
    refine readType_congr fun x _ below => same x (.inr ?_)
    rw [readType_clearUnused] at below
    omega
  rw [copyinPorts] at copied
  split at copied
  · rename_i port
    rw [if_pos port]
    have few := small ok port
    have length := length_ports (size port) few
    split at copied
    · cases copied
    rename_i memory' accesses found
    obtain rfl := Except.ok.inj copied
    have frame : ∀ x, x < (readType mem p).data ∨ (readType mem p).next ≤ x →
        memory' x = setName memory p (readType mem p).longform
          (copyinType (readType mem p).name) x := by
      intro x outside
      refine copyinObjects_frame (by rw [found]) fun inline => ?_
      rw [if_pos inline] at next
      have := amount_le (readType mem p)
      omega
    refine ⟨ok, fun x outside => ?_, ?_⟩
    · rw [frame x (by omega), setName_frame, cleared x outside]
      rw [← data]
      omega
    have named := readType_setName memory p (copyinType_small (readType mem p).name)
    rw [described] at named
    rw [← named]
    refine readType_congr fun x _ below => frame x (.inl ?_)
    rw [named] at below
    exact below
  · rename_i port
    rw [if_neg port]
    cases copied
    exact ⟨ok, cleared, described⟩

end Item

/-! ## The loops -/

section Loops

variable {o : Outcomes} {stop : ℕ} {mem mem' : Memory} {p : ℕ}

/-- The memories agree from a word on. -/
def AgreeFrom (p : ℕ) (mem mem' : Memory) : Prop := ∀ x, p ≤ x → mem' x = mem x

theorem AgreeFrom.readType (agree : AgreeFrom p mem mem') : readType mem' p = readType mem p :=
  readType_congr fun x above _ => agree x above

theorem items_congr (agree : AgreeFrom p mem mem') (fuel : ℕ) :
    items stop mem' fuel p = items stop mem fuel p := by
  induction fuel generalizing p with
  | zero => rfl
  | succ fuel ih =>
    rw [items, items, agree.readType]
    have after := next_gt mem p
    rw [ih fun x above => agree x (by omega)]

theorem sanityCheck_eq {eaddr saddr number : ℕ} (fits : saddr + 4 * number ≤ eaddr)
    (placed : eaddr < 2 ^ 32) : sanityCheck eaddr saddr number = number := by
  cases number with
  | zero => rfl
  | succ number =>
    rw [sanityCheck, if_neg]
    rw [Nat.mod_eq_of_lt (by omega)]
    omega

theorem copyoutObjects_frame {a : Answers} {t : TypeDescriptor} {j toGo x : ℕ}
    (outside : t.isInline → x < t.data + j ∨ t.data + j + toGo ≤ x) :
    copyoutObjects a t j toGo mem x = mem x := by
  induction toGo generalizing j mem with
  | zero => rfl
  | succ toGo ih =>
    have outside' : t.isInline → x < t.data + (j + 1) ∨ t.data + (j + 1) + toGo ≤ x :=
      fun inline => by have := outside inline; omega
    rw [copyoutObjects, ih outside', setObject]
    split
    · rename_i inline
      have := outside inline
      exact update_of_ne (by omega) _ _
    · rfl

/-- The later walks over a body visit the same items. -/
def Rewalks (base stop fuel p : ℕ) (mem : Memory) (visits : List Visit) : Prop :=
  ∀ mem', AgreeFrom p mem mem' → cleanLoop base stop fuel p mem' = some visits ∧
    ∀ a, copyoutLoop a stop fuel p mem' = some visits

/-- One item in the later walks: `t` is its descriptor as the copyin has left it. -/
theorem Rewalks.cons {base fuel : ℕ} {t : TypeDescriptor} {visits : List Visit}
    (placed : base + stop < 2 ^ 32) (more : 4 * p < stop) (described : Compat.readType mem p = t)
    (ok : 4 * t.data + (if t.isInline then t.amount else 4) ≤ stop)
    (ports : t.machPort → copyoutTypeCompat t.name ≠ none ∧ (t.isInline → 4 * t.number ≤ t.amount))
    (rest : Rewalks base stop fuel t.next mem visits) :
    Rewalks base stop (fuel + 1) p mem
      (⟨p, t.data, if t.machPort then t.number else 0⟩ :: visits) := by
  intro mem' agree
  have after := next_gt mem p
  have data := data_longform mem p
  have data' := data_gt mem p
  have same := agree.readType
  rw [described] at same after data data'
  have next := next_ge t
  have agree' : AgreeFrom t.next mem mem' := fun x above => agree x (by omega)
  constructor
  · rw [cleanLoop, if_pos more]
    dsimp only
    rw [same, (rest mem' agree').1, map_some]
    by_cases port : t.machPort = true
    · rw [if_pos port, if_pos port]
      split
      · rename_i inline
        have few := (ports port).2 inline
        rw [if_pos inline] at ok
        rw [sanityCheck_eq (by omega) placed]
      · rfl
    · rw [if_neg port, if_neg port]
  · intro a
    have pointer : ∀ memory : Memory, AgreeFrom t.next mem memory →
        AgreeFrom t.next mem (if t.isInline then memory
          else update memory t.data (copyoutData a t)) := by
      intro memory agree x above
      split
      · exact agree x above
      rename_i outOfLine
      rw [if_neg outOfLine] at next
      rw [update_of_ne (by omega)]
      exact agree x above
    rw [copyoutLoop, if_pos more]
    dsimp only
    rw [same]
    by_cases port : t.machPort = true
    · rw [if_pos port, if_pos port]
      obtain ⟨named, few⟩ := ports port
      split
      · rw [bind_some, (rest _ (pointer mem' agree')).2 a]
        rfl
      obtain ⟨name, found⟩ := ne_none_iff_exists'.mp named
      rw [found, map_some, bind_some, (rest _ (pointer _ fun x above => ?_)).2 a]
      · rfl
      rw [copyoutObjects_frame fun inline => ?_, setName_frame _ _ _ _ ?_]
      · exact agree' x above
      · rw [← data]
        omega
      · have := few inline
        rw [if_pos inline] at next
        omega
    · rw [if_neg port, if_neg port, bind_some, (rest _ (pointer mem' agree')).2 a]
      rfl

/-- What is to be shown of the loop of the copyin: it ends and stays inside; if it succeeds, all
items have passed their checks, and if they are well named the later walks visit the same. -/
def LoopGood (base : ℕ) (o : Outcomes) (stop fuel p : ℕ) (mem : Memory) : Prop :=
  ∃ run, copyinLoop o stop fuel p mem = some run ∧ (∀ x ∈ run.accesses, Inside stop x) ∧
    ∀ visits mem', run.result = .ok (visits, mem') →
      (∀ x < p, mem' x = mem x) ∧ (∀ t ∈ items stop mem fuel p, ItemOk stop t) ∧
        ((∀ t ∈ items stop mem fuel p, WellNamed t) → Rewalks base stop fuel p mem' visits)

theorem loopGood_done (base : ℕ) (o : Outcomes) (fuel : ℕ) (mem : Memory)
    (done : ¬ 4 * p < stop) : LoopGood base o stop (fuel + 1) p mem := by
  rw [LoopGood, copyinLoop, if_neg done, items, if_neg done]
  refine ⟨_, rfl, nofun, fun visits mem' same => ?_⟩
  cases same
  refine ⟨fun _ _ => rfl, nofun, fun _ mem'' _ => ⟨?_, fun a => ?_⟩⟩
  · rw [cleanLoop, if_neg done]
  · rw [copyoutLoop, if_neg done]

/-- The ports of an item that the copyin has renamed are those of the later walks. -/
theorem renamed_ports {t : TypeDescriptor} (ok : ItemOk stop t) (small : NoWrap t)
    (named : WellNamed t) {t' : TypeDescriptor}
    (same : t' = { t with name := if t.oldPort then copyinType t.name else t.name }) :
    (if t'.machPort then t'.number else 0) = (if t.oldPort then t.number else 0) ∧
      (t'.machPort → copyoutTypeCompat t'.name ≠ none ∧
        (t'.isInline → 4 * t'.number ≤ t'.amount)) := by
  by_cases port : t.oldPort = true
  · rw [if_pos port] at same
    have new : copyinType t.name = 16 ∨ copyinType t.name = 17 := by
      unfold copyinType
      split <;> simp
    have mach : t'.machPort = true := by
      subst same
      unfold TypeDescriptor.machPort
      rcases new with new | new <;> simp [new]
    have length : t'.length = 4 * t'.number := by
      subst same
      exact length_ports (t := { t with name := copyinType t.name }) (ok.2.1 port) (small port)
    have le := amount_le t'
    have number : t'.number = t.number := by rw [same]
    have name : t'.name = copyinType t.name := by rw [same]
    refine ⟨by rw [if_pos mach, if_pos port, number], fun _ => ⟨?_, fun _ => by omega⟩⟩
    rw [name]
    rcases new with new | new <;> simp [new, copyoutTypeCompat]
  · rw [if_neg port] at same
    obtain rfl : t' = t := same
    rw [if_neg port]
    refine ⟨?_, fun mach => ?_⟩
    · split
      · rename_i mach
        exact (named mach).1
      · rfl
    · obtain ⟨none', known⟩ := named mach
      exact ⟨known, fun _ => by omega⟩

/-- The loop of the copyin over items whose lengths do not wrap. -/
theorem copyinLoop_good {base : ℕ} (placed : base + stop < 2 ^ 32) (o : Outcomes) {fuel : ℕ}
    (enough : stop ≤ 4 * (p + fuel))
    (small : ∀ t ∈ items stop mem (fuel + 1) p, ItemOk stop t → NoWrap t) :
    LoopGood base o stop (fuel + 1) p mem := by
  induction fuel generalizing p mem with
  | zero => exact loopGood_done base o 0 mem (by omega)
  | succ fuel ih =>
    by_cases more : 4 * p < stop
    swap
    · exact loopGood_done base o _ mem more
    have after := next_gt mem p
    have list : items stop mem (fuel + 1 + 1) p = readType mem p ::
        if ItemOk stop (readType mem p) then items stop mem (fuel + 1) (readType mem p).next
        else [] := by
      rw [items, if_pos more]
    have small' := small (readType mem p) (by rw [list]; exact mem_cons_self)
    have inside := copyinItem_inside (o := o) small'
    rw [LoopGood, list, copyinLoop, if_pos more]
    cases item : copyinItem o stop mem p with
    | mk outcome accesses =>
      rw [item] at inside
      cases outcome with
      | error failure => exact ⟨_, rfl, inside, nofun⟩
      | ok mem₁ =>
        obtain ⟨ok, frame, described⟩ := copyinItem_frame (by rw [item]) small'
        -- the later items are those of the body before this one was rewritten
        have agree : AgreeFrom (readType mem p).next mem mem₁ := fun x above => frame x (.inr above)
        rw [if_pos ok, ← items_congr agree]
        rw [list, if_pos ok, ← items_congr agree] at small
        have others := fun t there => small t (mem_cons_of_mem _ there)
        obtain ⟨run, ran, inside', success⟩ := ih (by omega) others
        dsimp only
        rw [ran]
        refine ⟨_, rfl, ?_, fun visits mem' same => ?_⟩
        · intro x there
          exact (mem_append.mp there).elim (inside x) (inside' x)
        cases result : run.result with
        | error failure => rw [result] at same; cases same
        | ok rest =>
          obtain ⟨visits', memory⟩ := rest
          rw [result] at same
          cases same
          obtain ⟨below, checked, rewalks⟩ := success visits' memory result
          refine ⟨fun x less => ?_, ?_, fun named => ?_⟩
          · exact (below x (by omega)).trans (frame x (.inl less))
          · exact forall_mem_cons.mpr ⟨ok, checked⟩
          obtain ⟨first, others⟩ := forall_mem_cons.mp named
          obtain ⟨ports, known⟩ := renamed_ports ok (small' ok) first described
          rw [← ports]
          -- the rest of the copyin leaves the descriptor as this item has left it
          have described' : readType memory p = readType mem₁ p := by
            refine readType_congr fun x _ less => below x ?_
            rw [described] at less
            have next := next_ge (readType mem p)
            exact Nat.lt_of_lt_of_le less (by rw [← next]; exact Nat.le_add_right _ _)
          have whole := Rewalks.cons (t := readType mem₁ p) placed more described'
            (by rw [described]; exact ok.2.2) known (by rw [described]; exact rewalks others)
          rwa [described] at whole ⊢

end Loops

/-! ## The items that occur -/

section Occurring

variable {o : Outcomes} {stop : ℕ} {mem mem' : Memory} {p : ℕ} {t : TypeDescriptor}

/-- The outcomes when nothing fails, and arrays hold valid names. -/
def allSucceed : Outcomes where
  kalloc _ := some 4
  copyinmap _ := true
  vmDeallocate _ := true
  vmMove _ := some 4
  right _ _ := some 1
  array _ _ := 1

theorem copyinObjects_allSucceed (t : TypeDescriptor) (j toGo : ℕ) (mem : Memory) :
    (∃ mem', (copyinObjects allSucceed t j toGo mem).1 = some mem') ∧ ∀ k, j ≤ k → k < j + toGo →
        .object k t.length ∈ (copyinObjects allSucceed t j toGo mem).2 := by
  induction toGo generalizing j mem with
  | zero => exact ⟨⟨mem, rfl⟩, fun k above below => by omega⟩
  | succ toGo ih =>
    have first : .object j t.length ∈ objectAccesses t j := by
      unfold objectAccesses
      split <;> exact mem_cons_self
    have later : ∀ mem' : Memory, ∀ k, j ≤ k → k < j + (toGo + 1) → .object k t.length ∈
        objectAccesses t j ++ (copyinObjects allSucceed t (j + 1) toGo mem').2 := by
      intro mem' k above below
      by_cases here : k = j
      · rw [here]
        exact mem_append_left _ first
      · exact mem_append_right _ ((ih (j + 1) mem').2 k (by omega) (by omega))
    rw [copyinObjects]
    by_cases name : valid (objectAt allSucceed t mem j) = true
    · have right : allSucceed.right t.data j = some 1 := rfl
      rw [if_neg (not_not.mpr name), right]
      exact ⟨(ih (j + 1) _).1, later _⟩
    · rw [if_pos name]
      exact ⟨(ih (j + 1) mem).1, later mem⟩

theorem copyinData_allSucceed (t : TypeDescriptor) :
    ∃ data, copyinData allSucceed t = some data := by
  unfold copyinData
  split
  · exact ⟨0, rfl⟩
  · split
    · exact ⟨4, by simp [allSucceed]⟩
    · exact ⟨4, rfl⟩

/-- With nothing failing, an item that passes its checks is copied in, and all its ports are
accessed. -/
theorem copyinItem_allSucceed (ok : ItemOk stop (readType mem p)) :
    (∃ mem', (copyinItem allSucceed stop mem p).1 = .ok mem') ∧
      ((readType mem p).oldPort → ∀ k < (readType mem p).number,
        .object k (readType mem p).length ∈ (copyinItem allSucceed stop mem p).2) := by
  obtain ⟨begin', size, room⟩ := ok
  have data := data_longform mem p
  have after := data_gt mem p
  have placed : ∃ mem' more, placeData allSucceed stop
      (clearUnused mem p (readType mem p).longform) (readType mem p) = (.ok mem', more) := by
    unfold placeData
    split
    · rename_i inline
      rw [if_pos inline] at room
      rw [if_neg (by omega)]
      exact ⟨_, _, rfl⟩
    · rename_i inline
      rw [if_neg inline] at room
      rw [if_neg (by omega)]
      obtain ⟨pointer, copied⟩ := copyinData_allSucceed (readType mem p)
      rw [copied]
      exact ⟨_, _, rfl⟩
  obtain ⟨mem₁, more, placed⟩ := placed
  have longer : ¬ ((readType mem p).longform ∧ stop - 4 * p < 12) := by
    rintro ⟨long, short⟩
    rw [long] at data
    simp only [if_true] at data
    omega
  rw [copyinItem, if_neg (by omega)]
  rw [if_neg longer, if_neg fun both => both.2 (size both.1), placed]
  dsimp only
  unfold copyinPorts
  by_cases port : (readType mem p).oldPort = true
  · rw [if_pos port]
    obtain ⟨⟨mem₂, copied⟩, accessed⟩ := copyinObjects_allSucceed (readType mem p) 0
      (readType mem p).number
      (setName mem₁ p (readType mem p).longform (copyinType (readType mem p).name))
    cases found : copyinObjects allSucceed (readType mem p) 0 (readType mem p).number
        (setName mem₁ p (readType mem p).longform (copyinType (readType mem p).name)) with
    | mk outcome accesses =>
      rw [found] at copied accessed
      obtain rfl : outcome = some mem₂ := copied
      exact ⟨⟨mem₂, rfl⟩, fun _ k less =>
        mem_append_right _ (accessed k (Nat.zero_le k) (by omega))⟩
  · rw [if_neg port]
    exact ⟨⟨mem₁, rfl⟩, fun other => absurd other port⟩

/-- The length of a port item that wraps is less than its ports need. -/
theorem noWrap_of_inside {t : TypeDescriptor}
    (inside : ∀ k < t.number, 4 * (k + 1) ≤ t.length) : t.number < 2 ^ 27 := by
  by_contra large
  -- a length is below `2 ^ 29`, and the last of so many ports lies beyond it
  have last := inside (t.number - 1) (by omega)
  have bound : t.length < 2 ^ 29 := by
    unfold TypeDescriptor.length
    omega
  omega

variable {fuel : ℕ} {visits : List Visit} {run : Copyin}

/-- If everything accessed is inside, no length of an item that occurs wraps. -/
theorem noWrap_of_accesses (inside : ∀ run,
      copyinLoop allSucceed stop fuel p mem = some run → ∀ x ∈ run.accesses, Inside stop x)
    (ends : ∃ run, copyinLoop allSucceed stop fuel p mem = some run) :
    ∀ t ∈ items stop mem fuel p, ItemOk stop t → NoWrap t := by
  induction fuel generalizing p mem with
  | zero => nofun
  | succ fuel ih =>
    rw [items]
    by_cases more : 4 * p < stop
    swap
    · rw [if_neg more]
      nofun
    rw [if_pos more]
    by_cases ok : ItemOk stop (readType mem p)
    swap
    · rw [if_neg ok]
      intro t there checked
      rw [mem_singleton.mp there] at checked
      exact absurd checked ok
    rw [if_pos ok]
    obtain ⟨⟨mem₁, copied⟩, accessed⟩ := copyinItem_allSucceed ok
    obtain ⟨run, ran⟩ := ends
    rw [copyinLoop, if_pos more] at ran inside
    cases item : copyinItem allSucceed stop mem p with
    | mk outcome accesses =>
      rw [item] at copied accessed ran inside
      obtain rfl : outcome = .ok mem₁ := copied
      dsimp only at ran inside
      cases rest : copyinLoop allSucceed stop fuel (readType mem p).next mem₁ with
      | none => rw [rest] at ran; cases ran
      | some run' =>
        rw [rest] at ran inside
        have all := inside _ rfl
        have few : NoWrap (readType mem p) := fun port =>
          noWrap_of_inside fun k less =>
            all _ (mem_append_left _ (accessed port k less))
        have agree : AgreeFrom (readType mem p).next mem mem₁ := fun x above =>
          (copyinItem_frame (by rw [item]) fun _ => few).2.1 x (.inr above)
        rw [← items_congr agree]
        intro t there
        rcases mem_cons.mp there with rfl | there
        · exact fun _ => few
        refine ih (fun run'' same x there => ?_) ⟨run', rest⟩ t there
        rw [rest] at same
        rw [← some.inj same] at there
        exact all x (mem_append_right _ there)

/-- The answers of a copyout that always finds room. -/
def roomy : Answers := ⟨fun _ _ => 1, fun _ => some 4⟩

/-- One item in a copyout that always finds room. -/
theorem copyoutLoop_cons (more : 4 * p < stop) (described : readType mem p = t)
    (walked : copyoutLoop roomy stop (fuel + 1) p mem = some visits) :
    (t.machPort → copyoutTypeCompat t.name ≠ none) ∧
      ∃ rest mem', visits = ⟨p, t.data, if t.machPort then t.number else 0⟩ :: rest ∧
        copyoutLoop roomy stop fuel t.next mem' = some rest ∧
        ((t.machPort → t.isInline → 4 * t.number ≤ t.amount) → AgreeFrom t.next mem mem') := by
  have data := data_longform mem p
  have data' := data_gt mem p
  have next := next_ge t
  rw [described] at data data'
  have pointer : ∀ memory : Memory, AgreeFrom t.next mem memory → AgreeFrom t.next mem
      (if t.isInline then memory else update memory t.data (copyoutData roomy t)) := by
    intro memory agree x above
    split
    · exact agree x above
    rename_i outOfLine
    rw [if_neg outOfLine] at next
    rw [update_of_ne (by omega)]
    exact agree x above
  rw [copyoutLoop, if_pos more] at walked
  dsimp only at walked
  rw [described] at walked
  by_cases port : t.machPort = true
  · have room : ¬ (t.isInline = false ∧ t.length ≠ 0 ∧ roomy.address t.data = none) :=
      fun none' => by cases none'.2.2
    rw [if_pos port, if_pos port, if_neg room] at walked
    cases named : copyoutTypeCompat t.name with
    | none =>
      rw [named] at walked
      cases walked
    | some name =>
      rw [named, map_some, bind_some] at walked
      obtain ⟨rest, rest', rfl⟩ := map_eq_some_iff.mp walked
      refine ⟨fun _ => some_ne_none name, rest, _, by rw [if_pos port], rest', fun few => ?_⟩
      refine pointer _ fun x above => ?_
      rw [copyoutObjects_frame fun inline => ?_, setName_frame _ _ _ _ ?_]
      · rw [← data]
        omega
      · have := few port inline
        rw [if_pos inline] at next
        omega
  · rw [if_neg port, if_neg port, bind_some] at walked
    obtain ⟨rest, rest', rfl⟩ := map_eq_some_iff.mp walked
    exact ⟨fun other => absurd other port, rest, _, by rw [if_neg port], rest',
      fun _ => pointer mem fun _ _ => rfl⟩

/-- An item with as many ports to the copyout as to the copyin is well named. -/
theorem wellNamed_of_ports {t t' : TypeDescriptor} (ok : ItemOk stop t) (small : NoWrap t)
    (same : t' = { t with name := if t.oldPort then copyinType t.name else t.name })
    (known : t'.machPort → copyoutTypeCompat t'.name ≠ none)
    (ports : (if t'.machPort then t'.number else 0) = (if t.oldPort then t.number else 0)) :
    WellNamed t ∧ (t'.machPort → t'.isInline → 4 * t'.number ≤ t'.amount) := by
  by_cases port : t.oldPort = true
  · have old : t.name = 6 ∨ t.name = 5 := of_decide_eq_true port
    have notMach : ¬ t.machPort = true := fun mach => by
      have := of_decide_eq_true (p := 16 ≤ t.name ∧ t.name ≤ 21) mach
      omega
    refine ⟨fun mach => absurd mach notMach, fun _ _ => ?_⟩
    subst same
    have le := amount_le t
    have length := length_ports (ok.2.1 port) (small port)
    exact (by omega : 4 * t.number ≤ t.amount)
  · rw [if_neg port] at same ports
    obtain rfl : t' = t := same
    have none' : t'.machPort → t'.number = 0 := fun mach => by rwa [if_pos mach] at ports
    exact ⟨fun mach => ⟨none' mach, known mach⟩, fun mach _ => by have := none' mach; omega⟩

/-- If the copyout visits the items of the copyin, the items are well named. -/
theorem wellNamed_of_copyout {base : ℕ} (placed : base + stop < 2 ^ 32)
    (enough : stop ≤ 4 * (p + fuel))
    (small : ∀ t ∈ items stop mem (fuel + 1) p, ItemOk stop t → NoWrap t)
    (ran : copyinLoop o stop (fuel + 1) p mem = some run)
    (result : run.result = .ok (visits, mem')) {mem'' : Memory} (agree : AgreeFrom p mem' mem'')
    (walked : copyoutLoop roomy stop (fuel + 1) p mem'' = some visits) :
    ∀ t ∈ items stop mem (fuel + 1) p, WellNamed t := by
  induction fuel generalizing p mem mem' mem'' run visits with
  | zero =>
    rw [items, if_neg (by omega)]
    nofun
  | succ fuel ih =>
    by_cases more : 4 * p < stop
    swap
    · rw [items, if_neg more]
      nofun
    have after := next_gt mem p
    have list : items stop mem (fuel + 1 + 1) p = readType mem p ::
        if ItemOk stop (readType mem p) then items stop mem (fuel + 1) (readType mem p).next
        else [] := by
      rw [items, if_pos more]
    have small' := small (readType mem p) (by rw [list]; exact mem_cons_self)
    rw [copyinLoop, if_pos more] at ran
    cases item : copyinItem o stop mem p with
    | mk outcome accesses =>
      rw [item] at ran
      cases outcome with
      | error failure =>
        rw [← some.inj ran] at result
        cases result
      | ok mem₁ =>
        obtain ⟨ok, frame, described⟩ := copyinItem_frame (by rw [item]) small'
        have agree₁ : AgreeFrom (readType mem p).next mem mem₁ :=
          fun x above => frame x (.inr above)
        rw [list, if_pos ok, ← items_congr agree₁] at small ⊢
        have others := fun t there => small t (mem_cons_of_mem _ there)
        obtain ⟨run', ran', -, success⟩ := copyinLoop_good placed o (by omega) others
        dsimp only at ran
        rw [ran'] at ran
        cases ran
        cases result' : run'.result with
        | error failure => rw [result'] at result; cases result
        | ok rest =>
          obtain ⟨visits', memory⟩ := rest
          rw [result'] at result
          cases result
          obtain ⟨below, -, -⟩ := success visits' memory result'
          have described' : readType mem'' p = readType mem₁ p := by
            rw [agree.readType]
            refine readType_congr fun x _ less => below x ?_
            rw [described] at less
            have next := next_ge (readType mem p)
            exact Nat.lt_of_lt_of_le less (by rw [← next]; exact Nat.le_add_right _ _)
          obtain ⟨known, rest, memory', same, walked', agree'⟩ :=
            copyoutLoop_cons more (described'.trans described) walked
          -- as many ports in both walks: this is where a new type with ports is found out
          obtain ⟨first, rfl⟩ := List.cons.inj same
          obtain ⟨named, few⟩ := wellNamed_of_ports ok (small' ok) rfl known
            (congrArg Visit.ports first).symm
          refine forall_mem_cons.mpr ⟨named, ih (by omega) others ran' result' ?_ walked'⟩
          intro x above
          rw [agree' few x above]
          exact agree x (Nat.le_of_lt (Nat.lt_of_lt_of_le after above))

/-- With nothing failing, items that pass their checks are all copied in. -/
theorem copyinLoop_allSucceed
    (enough : stop ≤ 4 * (p + fuel)) (ok : ∀ t ∈ items stop mem (fuel + 1) p, ItemOk stop t)
    (small : ∀ t ∈ items stop mem (fuel + 1) p, NoWrap t)
    (ran : copyinLoop allSucceed stop (fuel + 1) p mem = some run) :
    ∃ visits mem', run.result = .ok (visits, mem') := by
  induction fuel generalizing p mem run with
  | zero =>
    rw [copyinLoop, if_neg (by omega)] at ran
    rw [← some.inj ran]
    exact ⟨_, _, rfl⟩
  | succ fuel ih =>
    by_cases more : 4 * p < stop
    swap
    · rw [copyinLoop, if_neg more] at ran
      rw [← some.inj ran]
      exact ⟨_, _, rfl⟩
    have after := next_gt mem p
    rw [items, if_pos more] at ok small
    obtain ⟨first, others⟩ := forall_mem_cons.mp ok
    obtain ⟨few, small⟩ := forall_mem_cons.mp small
    rw [if_pos first] at others small
    obtain ⟨⟨mem₁, copied⟩, -⟩ := copyinItem_allSucceed first
    have agree : AgreeFrom (readType mem p).next mem mem₁ := fun x above =>
      (copyinItem_frame copied fun _ => few).2.1 x (.inr above)
    rw [← items_congr agree] at others small
    rw [copyinLoop, if_pos more] at ran
    cases item : copyinItem allSucceed stop mem p with
    | mk outcome accesses =>
      rw [item] at copied ran
      obtain rfl : outcome = .ok mem₁ := copied
      dsimp only at ran
      cases rest : copyinLoop allSucceed stop (fuel + 1) (readType mem p).next mem₁ with
      | none => rw [rest] at ran; cases ran
      | some run' =>
        rw [rest] at ran
        cases ran
        obtain ⟨visits, mem', result⟩ := ih (by omega) others small rest
        rw [result]
        exact ⟨_, _, rfl⟩

end Occurring

/-! ## When a body is parsed within its bounds -/

/-- The body of an old message that is not simple, at the address `base` in memory. -/
structure Body where
  base : ℕ
  stop : ℕ
  mem : Memory
  placed : base + stop < 2 ^ 32

/-- Whatever the outcomes, the loop of the copyin ends, reads below the end and accesses objects
inside their data, and after a success the later walks visit the same items with as many ports. -/
def WellParsed (b : Body) : Prop :=
  ∀ o, ∃ run, copyinLoop o b.stop (b.stop + 1) 0 b.mem = some run ∧
    (∀ x ∈ run.accesses, Inside b.stop x) ∧
    ∀ visits mem, run.result = .ok (visits, mem) →
      cleanLoop b.base b.stop (b.stop + 1) 0 mem = some visits ∧
        ∀ a, copyoutLoop a b.stop (b.stop + 1) 0 mem = some visits

/-- The items of a body, up to one that fails a check. -/
def Body.items (b : Body) : List TypeDescriptor := Compat.items b.stop b.mem (b.stop + 1) 0

/-- A body is parsed within its bounds if and only if no port item that passes its checks is so
large that its length wraps, and, where all items pass, none is a port item to the later walks only.
-/
theorem wellParsed_iff (b : Body) :
    WellParsed b ↔ (∀ t ∈ b.items, ItemOk b.stop t → NoWrap t) ∧
        ((∀ t ∈ b.items, ItemOk b.stop t) → ∀ t ∈ b.items, WellNamed t) := by
  have enough : b.stop ≤ 4 * (0 + b.stop) := by omega
  constructor
  · intro parsed
    obtain ⟨run, ran, inside, same⟩ := parsed allSucceed
    have small : ∀ t ∈ b.items, ItemOk b.stop t → NoWrap t := by
      refine noWrap_of_accesses (fun run' ran' => ?_) ⟨run, ran⟩
      rw [ran] at ran'
      rwa [← some.inj ran']
    refine ⟨small, fun ok => ?_⟩
    obtain ⟨visits, mem, result⟩ := copyinLoop_allSucceed enough ok
      (fun t there => small t there (ok t there)) ran
    exact wellNamed_of_copyout b.placed enough small ran result (fun _ _ => rfl)
      ((same visits mem result).2 roomy)
  · rintro ⟨small, named⟩ o
    obtain ⟨run, ran, inside, success⟩ := copyinLoop_good b.placed o enough small
    refine ⟨run, ran, inside, fun visits mem result => ?_⟩
    obtain ⟨-, ok, rewalks⟩ := success visits mem result
    exact rewalks (named ok) mem fun x _ => rfl

/-- A body of one long descriptor for `2 ^ 27` ports inline, and no data. -/
def manyPorts : Body where
  base := 4096
  stop := 12
  mem p := [2 ^ 28 + 2 ^ 29, 32 * 2 ^ 16 + 6, 2 ^ 27].getD p 1
  placed := by omega

/-- The outcomes when no name denotes a right. -/
def noRights : Outcomes := { allSucceed with right := fun _ _ => none }

/-- The length of the ports wraps to zero, and the first of them is read past the end. -/
theorem ports_past_the_end : ¬ WellParsed manyPorts := by
  intro parsed
  obtain ⟨run, ran, inside, -⟩ := parsed noRights
  have accessed : (copyinLoop noRights 12 13 0 manyPorts.mem).map Copyin.accesses =
      some [.read 0 4, .read 0 12, .object 0 0, .read 3 4] := by decide +kernel
  have same : some run.accesses = some [.read 0 4, .read 0 12, .object 0 0, .read 3 4] :=
    (congrArg (Option.map Copyin.accesses) ran).symm.trans accessed
  have past : Inside 12 (.read 3 4) := inside _ (by rw [some.inj same]; simp)
  exact absurd past (by unfold Inside; decide)

end Darwin.Ipc.Compat
