import Mathlib.Algebra.BigOperators.Group.Finset.Basic

/-!
# Memory objects and their shadows

A memory object holds resident pages and may have a pager that holds others; what it does not have
is looked for in its shadow, at an offset.  `vm_object_collapse` shortens such chains: it moves what
the shadow has to the object if nobody else refers to the shadow, and else lets the object bypass
its shadow if that contributes nothing.

The objects that exist are those of `vm_object_list`.  Offsets are 32-bit values.

## Main definitions

* `vmObjectCollapse`
* `Shows` - the page that the search along the chain finds
-/

namespace Darwin.Vm.Object

/-! ## Data -/

/-- The fields of `struct vm_object` that the search and the collapse use.  `memq` lists the
resident pages with their offsets. -/
structure VmObject (I P D : Type*) where
  memq : List (ℕ × D)
  size : ℕ
  refCount : ℤ
  copy : Option I
  shadow : Option I
  shadowOffset : ℕ
  pager : Option P
  pagingOffset : ℕ
  pagingInProgress : ℕ
  internal : Bool

/-- The objects, and which of them exist: those on `vm_object_list`. -/
structure Objects (I P D : Type*) where
  live : Finset I
  object : I → VmObject I P D

variable {I P D : Type*}

/-- `vm_page_lookup`, in the pages of an object. -/
def vmPageLookup (memq : List (ℕ × D)) (offset : ℕ) : Option D :=
  (memq.find? fun p => p.1 == offset).map Prod.snd

/-! ## The search -/

/-- What the search for a page finds: a resident page, the place of a page in a pager, or that the
page is to be filled with zeros. -/
inductive Found (P D : Type*) where
  | page (p : D)
  | paged (pager : P) (offset : ℕ)
  | zero

/-- What an object has at an offset, with `has` telling which pages the pagers have. -/
def VmObject.hit (has : P → ℕ → Bool) (o : VmObject I P D) (offset : ℕ) : Option (Found P D) :=
  match vmPageLookup o.memq offset with
  | some p => some (.page p)
  | none => o.pager.bind fun pager =>
    if has pager ((offset + o.pagingOffset) % 2 ^ 32) then
      some (.paged pager ((offset + o.pagingOffset) % 2 ^ 32))
    else none

/-- The search along the chain of shadows. -/
inductive Shows (has : P → ℕ → Bool) (g : Objects I P D) : I → ℕ → Found P D → Prop
  | here {i : I} {offset : ℕ} {found : Found P D}
      (hit : (g.object i).hit has offset = some found) : Shows has g i offset found
  | shadow {i s : I} {offset : ℕ} {found : Found P D}
      (missing : (g.object i).hit has offset = none) (shadow : (g.object i).shadow = some s)
      (shows_ : Shows has g s ((offset + (g.object i).shadowOffset) % 2 ^ 32) found) :
      Shows has g i offset found
  | zero {i : I} {offset : ℕ} (missing : (g.object i).hit has offset = none)
      (bottom : (g.object i).shadow = none) : Shows has g i offset .zero

/-! ## `vm_object_collapse` -/

/-- The loop over the pages of the backing object, that frees each page or renames it to a page of
the object: the pages of the object. -/
def moveLoop (backingOffset size : ℕ) : List (ℕ × D) → List (ℕ × D) → List (ℕ × D)
  | [], memq => memq
  | p :: rest, memq =>
    -- `vm_page_free`, for a page outside of the object and for one that the object hides
    if p.1 < backingOffset ∨ size ≤ p.1 - backingOffset then moveLoop backingOffset size rest memq
    else if (vmPageLookup memq (p.1 - backingOffset)).isSome then
      moveLoop backingOffset size rest memq
    -- `vm_page_rename`
    else moveLoop backingOffset size rest (memq ++ [(p.1 - backingOffset, p.2)])

/-- A page of the backing object is still needed, by the test of the loop that decides on a
bypass. -/
def pageNeeded (backingOffset size : ℕ) (memq : List (ℕ × D)) (p : ℕ × D) : Bool :=
  decide (backingOffset ≤ p.1) && decide (p.1 - backingOffset ≤ size) &&
    (vmPageLookup memq (p.1 - backingOffset)).isNone

section Collapse

variable [DecidableEq I]

/-- The backing object is collapsed into the object, and freed. -/
def absorb (g : Objects I P D) (object backing : I) : Objects I P D where
  live := g.live.erase backing
  object := Function.update g.object object { g.object object with
    memq := moveLoop (g.object object).shadowOffset (g.object object).size (g.object backing).memq
      (g.object object).memq
    pager := (g.object backing).pager
    pagingOffset := ((g.object backing).pagingOffset + (g.object object).shadowOffset) % 2 ^ 32
    shadow := (g.object backing).shadow
    shadowOffset := ((g.object object).shadowOffset + (g.object backing).shadowOffset) % 2 ^ 32 }

/-- `vm_object_reference`. -/
def reference (objects : I → VmObject I P D) : Option I → I → VmObject I P D
  | none => objects
  | some i => Function.update objects i { objects i with refCount := (objects i).refCount + 1 }

/-- The object bypasses the backing object. -/
def bypass (g : Objects I P D) (object backing : I) : Objects I P D where
  live := g.live
  object :=
    let objects := Function.update g.object object { g.object object with
      shadow := (g.object backing).shadow
      shadowOffset := ((g.object object).shadowOffset + (g.object backing).shadowOffset) % 2 ^ 32 }
    let objects := reference objects (g.object backing).shadow
    Function.update objects backing
      { objects backing with refCount := (objects backing).refCount - 1 }

/-- One turn of the loop of `vm_object_collapse`: the objects, or that it returns. -/
def collapseStep (g : Objects I P D) (object : I) : Option (Objects I P D) :=
  if (g.object object).pagingInProgress ≠ 0 ∨ (g.object object).pager.isSome then none
  else
    match (g.object object).shadow with
    | none => none
    | some backing =>
      if (g.object backing).internal = false ∨ (g.object backing).pagingInProgress ≠ 0 then none
      else if (g.object backing).shadow.any fun s => (g.object s).copy.isSome then none
      -- the panic behind the collapse repeats this test
      else if (g.object backing).refCount = 1 then some (absorb g object backing)
      else if (g.object backing).pager.isSome then none
      else if (g.object backing).memq.any
          (pageNeeded (g.object object).shadowOffset (g.object object).size
            (g.object object).memq) then none
      else some (bypass g object backing)

/-- The loop of `vm_object_collapse`; `none` if it has not ended after so many turns. -/
def collapseLoop : ℕ → Objects I P D → I → Option (Objects I P D)
  | 0, _, _ => none
  | fuel + 1, g, object =>
    match collapseStep g object with
    | none => some g
    | some g' => collapseLoop fuel g' object

/-- `vm_object_collapse`; `allowed` is `vm_object_collapse_allowed`. -/
def vmObjectCollapse (allowed : Bool) (fuel : ℕ) (g : Objects I P D) (object : Option I) :
    Option (Objects I P D) :=
  if allowed then
    match object with
    | none => some g
    | some object => collapseLoop fuel g object
  else some g

end Collapse

end Darwin.Vm.Object
