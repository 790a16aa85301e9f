import Darwin.Netinfo.File.Basic

/-!
# NetInfo directories

The data that a NetInfo server keeps about a directory, the list operations of the NetInfo library
(`ni_util.c`) that work on it, and who may change it (`ni_validate_dir`, `ni_validate_name`).

Indexes and instances are 32-bit words, kept as natural numbers; only the instance is ever counted
up or down, with the wrap written out.
-/

namespace Darwin.Netinfo

/-- `ni_name`: the bytes of a string. -/
abbrev Name := List UInt8

/-- `NI_INDEX_NULL`, which is also `DB_FREE`. -/
abbrev niIndexNull : ℕ := dbFree

/-- `ni_id`. -/
@[ext]
structure Id where
  object : ℕ
  inst : ℕ
  deriving DecidableEq, Repr

/-- `ni_property`. -/
structure Property where
  name : Name
  values : List Name
  deriving DecidableEq, Repr

/-- `ni_object`. -/
structure Object where
  id : Id
  parent : ℕ
  children : List ℕ
  props : List Property
  deriving DecidableEq, Repr

/-- The codes of `ni_status` for a request that failed. -/
inductive Status where
  | badid | stale | nospace | perm | nodir | noprop | noname | notempty | unrelated
  | rdonly | systemerr | alive | nouser | autherror | masterbusy
  deriving DecidableEq, Repr

/-- `nii_instance++`. -/
def bump (inst : ℕ) : ℕ := (inst + 1) % 2 ^ 32

/-- `nii_instance--`. -/
def unbump (inst : ℕ) : ℕ := (inst + (2 ^ 32 - 1)) % 2 ^ 32

/-! ## Lists -/

/-- The insertions of the library: at the end if the place is past it. -/
def insertAt {α : Type*} (l : List α) (place : ℕ) (a : α) : List α :=
  l.take place ++ a :: l.drop place

variable {α : Type*} {l : List α}

theorem insertAt_perm (l : List α) (place : ℕ) (a : α) :
    (insertAt l place a).Perm (a :: l) := by
  have middle := @List.perm_middle α a (l.take place) (l.drop place)
  rw [List.take_append_drop] at middle
  exact middle

theorem mem_insertAt {place : ℕ} {a b : α} :
    b ∈ insertAt l place a ↔ b = a ∨ b ∈ l := by
  rw [(insertAt_perm l place a).mem_iff, List.mem_cons]

theorem nodup_insertAt {place : ℕ} {a : α} (nodup : l.Nodup)
    (fresh : a ∉ l) : (insertAt l place a).Nodup :=
  (insertAt_perm l place a).nodup_iff.mpr (List.nodup_cons.mpr ⟨fresh, nodup⟩)

/-- `ni_prop_find`: the first property of this name. -/
def propFind (props : List Property) (pname : Name) : Option Property :=
  props.find? (·.name = pname)

/-! ## Access -/

/-- `ACCESS_USER_SUPER`: `root`. -/
def accessUserSuper : Name := [114, 111, 111, 116]

/-- `ACCESS_USER_ANYBODY`: `*`. -/
def accessUserAnybody : Name := [42]

/-- `ACCESS_DIR_KEY`: `_writers`. -/
def accessDirKey : Name := [95, 119, 114, 105, 116, 101, 114, 115]

/-- `ACCESS_NAME_PREFIX`: `_writers_`. -/
def accessNamePrefix : Name := accessDirKey ++ [95]

/-- `ni_inaccesslist`. -/
def inAccessList (user : Option Name) (accessList : List Name) : Bool :=
  accessList.contains accessUserAnybody ||
    match user with
    | none => false
    | some user => accessList.contains user

/-- The user may change whatever the first property of this name lists it for. -/
def validate (user : Option Name) (obj : Object) (key : Name) : Bool :=
  user == some accessUserSuper ||
    match propFind obj.props key with
    | none => false
    | some prop => inAccessList user prop.values

/-- `ni_validate_dir`. -/
def validateDir (user : Option Name) (obj : Object) : Bool := validate user obj accessDirKey

/-- `ni_validate_name`. -/
def validateName (user : Option Name) (obj : Object) (prop : Property) : Bool :=
  validate user obj (accessNamePrefix ++ prop.name)

end Darwin.Netinfo
