import Darwin.Netinfo.Server.Store

/-!
# The requests that modify a NetInfo database

`ni_root`, `ni_create`, `ni_destroy` and the operations on properties of `ni.c`, and the remote
procedures of `ni_prot_proc.c` that call them and keep the checksum of the database up to date.

A request that succeeds hands the index manager what has changed; here it returns these calls.
-/

namespace Darwin.Netinfo

/-- Calls of the index manager (`index_manager.h`). -/
inductive ImCall where
  | newnode (obj : Object) (place : ℕ)
  | remove (obj : Object)
  | createAll (obj : Object) (props : List Property)
  | destroyAll (obj : Object) (props : List Property)
  | createList (obj : Object) (key : Name) (vals : List Name)
  | destroyList (obj : Object) (key : Name) (vals : List Name)
  | create (obj : Object) (key val : Name) (place : ℕ)
  | destroy (obj : Object) (key val : Name) (place : ℕ)
  deriving DecidableEq, Repr

/-- What a request that succeeded returns: the new id of the directory that it modified, the id of a
new directory, and the calls of the index manager. -/
structure Reply where
  self : Id
  child : Id
  calls : List ImCall
  deriving DecidableEq, Repr

namespace Store

variable (s : Store)

/-- The root that `ni_root` makes, before its first commit. -/
def newRoot (id : Id) : Object := { id := id, parent := 0, children := [], props := [] }

/-- `ni_root`.  Where there is no root, its id is found again and one is made. -/
def root (w again : Writes) : Except Status Id × Store :=
  match s.objLookupRoot w with
  | (.ok obj, s₁) => (.ok obj.id, s₁)
  | (.error _, s₁) =>
    match s₁.fileRootid again with
    | (.error status, s₂) => (.error status, s₂)
    | (.ok id, s₂) =>
      match s₂.objCommit again.self (newRoot id) with
      | (.error status, _, s₃) => (.error status, s₃)
      | (.ok _, obj, s₃) => (.ok obj.id, s₃)

/-- The new directory of `ni_create` before its first commit. -/
def newChild (id : Id) (parent : Object) (props : List Property) : Object :=
  { id := id, parent := parent.id.object, children := [], props := props }

/-- The parent with the child in its list.  A child that is there already is not entered again. -/
def withChild (parent : Object) (child place : ℕ) : Object :=
  { parent with
    children := if parent.children.contains child then parent.children
      else insertAt parent.children place child }

/-- `ni_create` once the parent has been looked up and an id has been found for the child. -/
def createWith (w : Writes) (parent : Object) (props : List Property) (id : Id) (place : ℕ) :
    Except Status Reply × Store :=
  match s.objCommit w.child (newChild id parent props) with
  | (.error status, child, s₁) => (.error status, s₁.objUnalloc w.unalloc child)
  | (.ok _, child, s₁) =>
    match s₁.objCommit w.self (withChild parent child.id.object place) with
    | (.error status, _, s₂) => (.error status, s₂.objUnalloc w.unalloc child)
    | (.ok _, parent', s₂) => (.ok ⟨parent'.id, child.id, [.newnode child place]⟩, s₂)

/-- `ni_create`.  The id of the child is `NI_INDEX_NULL` if any will do. -/
def create (user : Option Name) (w : Writes) (parentId : Id) (props : List Property) (childId : Id)
    (place : ℕ) : Except Status Reply × Store :=
  match s.objLookupWrite parentId with
  | (.error status, s₁) => (.error status, s₁)
  | (.ok parent, s₁) =>
    if !validateDir user parent then (.error .perm, s₁)
    else
      match s₁.objAlloc w childId with
      | (.error status, s₂) => (.error status, s₂)
      | (.ok id, s₂) => s₂.createWith w parent props id place

/-- How `ni_destroy` looks up the child: one that cannot be read is no error. -/
def lookupChild (childId : Id) : Except Status (Option Object) × Store :=
  match s.objLookupWrite childId with
  | (.ok child, s₁) => (.ok (some child), s₁)
  | (.error .badid, s₁) => (.ok none, s₁)
  | (.error status, s₁) => (.error status, s₁)

/-- `ni_destroy` once both directories have been looked up. -/
def destroyWith (w : Writes) (parent : Object) (childId : Id) (child : Option Object) :
    Except Status Reply × Store :=
  if child.any (·.children ≠ []) then (.error .notempty, s)
  else if !parent.children.contains childId.object then (.error .unrelated, s)
  else
    match s.objCommit w.self { parent with
        children := parent.children.erase childId.object } with
    | (.error status, _, s₁) => (.error status, s₁)
    | (.ok _, parent', s₁) =>
      match child with
      | none => (.ok ⟨parent'.id, childId, []⟩, s₁)
      | some child => (.ok ⟨parent'.id, childId, [.remove child]⟩, s₁.objUnalloc w.unalloc child)

/-- `ni_destroy`.  A child that cannot be read is only taken off the list. -/
def destroy (user : Option Name) (w : Writes) (parentId childId : Id) :
    Except Status Reply × Store :=
  match s.objLookupWrite parentId with
  | (.error status, s₁) => (.error status, s₁)
  | (.ok parent, s₁) =>
    if !validateDir user parent then (.error .perm, s₁)
    else
      match s₁.lookupChild childId with
      | (.error status, s₂) => (.error status, s₂)
      | (.ok child, s₂) => s₂.destroyWith w parent childId child

/-- The operations on the properties of one directory: look it up, work out the new properties
unless there is something wrong with the request, commit, tell the index manager. -/
def modify (w : Writes) (id : Id)
    (edit : Object → Except Status (List Property × (Object → List ImCall))) :
    Except Status Reply × Store :=
  match s.objLookupWrite id with
  | (.error status, s₁) => (.error status, s₁)
  | (.ok obj, s₁) =>
    match edit obj with
    | .error status => (.error status, s₁)
    | .ok (props, calls) =>
      match s₁.objCommit w.self { obj with props := props } with
      | (.error status, _, s₂) => (.error status, s₂)
      | (.ok _, obj', s₂) => (.ok ⟨obj'.id, obj'.id, calls obj'⟩, s₂)

/-- `ni_write`. -/
def write (user : Option Name) (w : Writes) (id : Id) (props : List Property) :
    Except Status Reply × Store :=
  s.modify w id fun obj =>
    if !validateDir user obj then .error .perm
    else .ok (props, fun obj' => [.destroyAll obj' obj.props, .createAll obj' props])

/-- `ni_createprop`. -/
def createprop (user : Option Name) (w : Writes) (id : Id) (prop : Property) (place : ℕ) :
    Except Status Reply × Store :=
  s.modify w id fun obj =>
    if !validateDir user obj then .error .perm
    else .ok (insertAt obj.props place prop, fun obj' => [.createList obj' prop.name prop.values])

/-- `ni_destroyprop`. -/
def destroyprop (user : Option Name) (w : Writes) (id : Id) (propIndex : ℕ) :
    Except Status Reply × Store :=
  s.modify w id fun obj =>
    match obj.props[propIndex]? with
    | none => .error .noprop
    | some prop =>
      if !validateDir user obj then .error .perm
      else .ok (obj.props.eraseIdx propIndex, fun obj' => [.destroyList obj' prop.name prop.values])

/-- `ni_renameprop`. -/
def renameprop (user : Option Name) (w : Writes) (id : Id) (propIndex : ℕ) (name : Name) :
    Except Status Reply × Store :=
  s.modify w id fun obj =>
    match obj.props[propIndex]? with
    | none => .error .noprop
    | some prop =>
      if !validateDir user obj then .error .perm
      else .ok (obj.props.set propIndex { prop with name := name },
        fun obj' => [.destroyList obj' prop.name prop.values, .createList obj' name prop.values])

/-- `ni_writeprop`: access to the property is enough, here and for its values. -/
def writeprop (user : Option Name) (w : Writes) (id : Id) (propIndex : ℕ) (values : List Name) :
    Except Status Reply × Store :=
  s.modify w id fun obj =>
    match obj.props[propIndex]? with
    | none => .error .noprop
    | some prop =>
      if !(validateDir user obj || validateName user obj prop) then .error .perm
      else .ok (obj.props.set propIndex { prop with values := values },
        fun obj' => [.destroyList obj' prop.name prop.values, .createList obj' prop.name values])

/-- `ni_createname`. -/
def createname (user : Option Name) (w : Writes) (id : Id) (propIndex : ℕ) (name : Name)
    (place : ℕ) : Except Status Reply × Store :=
  s.modify w id fun obj =>
    match obj.props[propIndex]? with
    | none => .error .noprop
    | some prop =>
      if !(validateDir user obj || validateName user obj prop) then .error .perm
      else .ok (obj.props.set propIndex { prop with values := insertAt prop.values place name },
        fun obj' => [.create obj' prop.name name place])

/-- `ni_destroyname`. -/
def destroyname (user : Option Name) (w : Writes) (id : Id) (propIndex nameIndex : ℕ) :
    Except Status Reply × Store :=
  s.modify w id fun obj =>
    match obj.props[propIndex]? with
    | none => .error .noprop
    | some prop =>
      match prop.values[nameIndex]? with
      | none => .error .noname
      | some saved =>
        if !(validateDir user obj || validateName user obj prop) then .error .perm
        else .ok (obj.props.set propIndex { prop with values := prop.values.eraseIdx nameIndex },
          fun obj' => [.destroy obj' prop.name saved nameIndex])

/-- `ni_writename`. -/
def writename (user : Option Name) (w : Writes) (id : Id) (propIndex nameIndex : ℕ) (name : Name) :
    Except Status Reply × Store :=
  s.modify w id fun obj =>
    match obj.props[propIndex]? with
    | none => .error .noprop
    | some prop =>
      match prop.values[nameIndex]? with
      | none => .error .noname
      | some saved =>
        if !(validateDir user obj || validateName user obj prop) then .error .perm
        else .ok (obj.props.set propIndex { prop with values := prop.values.set nameIndex name },
          fun obj' => [.destroy obj' prop.name saved nameIndex,
            .create obj' prop.name name nameIndex])

end Store

/-! ## Remote procedures -/

/-- The arguments of the procedures that modify the database. -/
inductive Request where
  | create (id : Id) (props : List Property) (place : ℕ) (target : Option Id)
  | destroy (parentId selfId : Id)
  | write (id : Id) (props : List Property)
  | createprop (id : Id) (prop : Property) (place : ℕ)
  | destroyprop (id : Id) (propIndex : ℕ)
  | renameprop (id : Id) (propIndex : ℕ) (name : Name)
  | writeprop (id : Id) (propIndex : ℕ) (values : List Name)
  | createname (id : Id) (propIndex : ℕ) (name : Name) (place : ℕ)
  | destroyname (id : Id) (propIndex nameIndex : ℕ)
  | writename (id : Id) (propIndex nameIndex : ℕ) (name : Name)
  deriving DecidableEq, Repr

/-- The directory that a request modifies, as the client names it. -/
def Request.self : Request → Id
  | .create id _ _ _ => id
  | .destroy parentId _ => parentId
  | .write id _ => id
  | .createprop id _ _ => id
  | .destroyprop id _ => id
  | .renameprop id _ _ => id
  | .writeprop id _ _ => id
  | .createname id _ _ _ => id
  | .destroyname id _ _ => id
  | .writename id _ _ _ => id

/-- `arg->target_id` as `_ni_create_2_svc` hands it on. -/
def targetId : Option Id → Id
  | some id => id
  | none => ⟨niIndexNull, 0⟩

/-- What a procedure calls once `validate_write` has found who the user is. -/
def Store.perform (s : Store) (user : Option Name) (w : Writes) :
    Request → Except Status Reply × Store
  | .create id props place target => s.create user w id props (targetId target) place
  | .destroy parentId selfId => s.destroy user w parentId selfId
  | .write id props => s.write user w id props
  | .createprop id prop place => s.createprop user w id prop place
  | .destroyprop id propIndex => s.destroyprop user w id propIndex
  | .renameprop id propIndex name => s.renameprop user w id propIndex name
  | .writeprop id propIndex values => s.writeprop user w id propIndex values
  | .createname id propIndex name place => s.createname user w id propIndex name place
  | .destroyname id propIndex nameIndex => s.destroyname user w id propIndex nameIndex
  | .writename id propIndex nameIndex name => s.writename user w id propIndex nameIndex name

/-! ### The checksum (`checksum.c`) -/

/-- `checksum_inc`. -/
def checksumInc (checksum : ℕ) (id : Id) : ℕ := (checksum + (id.object + 1)) % 2 ^ 32

/-- `checksum_add`. -/
def checksumAdd (checksum : ℕ) (id : Id) : ℕ := (checksum + (id.object + 1) * id.inst) % 2 ^ 32

/-- `checksum_rem`. -/
def checksumRem (checksum : ℕ) (id : Id) : ℕ :=
  (checksum + (2 ^ 32 - (id.object + 1) * id.inst % 2 ^ 32)) % 2 ^ 32

/-- What a procedure makes of `db_checksum` after a success. -/
def Request.checksum (checksum : ℕ) (reply : Reply) : Request → ℕ
  | .create _ _ _ _ => checksumAdd (checksumInc checksum reply.self) reply.child
  | .destroy _ selfId => checksumRem (checksumInc checksum reply.self) selfId
  | _ => checksumInc checksum reply.self

/-- The database and its running checksum. -/
structure Server where
  store : Store
  dbChecksum : ℕ

/-- A database with nothing but a root. -/
def Server.new : Server := ⟨(Store.empty.root Writes.all Writes.all).2, 1⟩

/-- A procedure: `auth` is the result of `validate_write`, the user or a refusal. -/
def Server.serve (s : Server) (auth : Except Status (Option Name)) (w : Writes) (r : Request) :
    Except Status Reply × Server :=
  match auth with
  | .error status => (.error status, s)
  | .ok user =>
    match s.store.perform user w r with
    | (.error status, store) => (.error status, { s with store := store })
    | (.ok reply, store) => (.ok reply, ⟨store, r.checksum s.dbChecksum reply⟩)

/-- What `notify_clients` records for the clones: a creation with the id that was found. -/
def Request.recorded (reply : Reply) : Request → Request
  | .create id props place none => .create id props place (some reply.child)
  | r => r

end Darwin.Netinfo
