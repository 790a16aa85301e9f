import Darwin.Netinfo.Server.Object

/-!
# The directories of a NetInfo server

The layers of `ni_file.c` and `ni_impl.c` that find, allocate, read, write and free directories.
The files are what `transact` and `transact_cleanup` make of them: a record for each id below
`highest_id`.  A free record is one with the object id `DB_FREE`; it keeps an instance.

A write of a record can fail, and then leaves it as it was.  Which of the writes of a request fail
is a parameter of the request, with a place for each write that the code makes.
-/

namespace Darwin.Netinfo

open Function (update)

/-- What the files hold for an id. -/
inductive Record where
  | decoded (obj : Object)
  /-- Bytes that are no object; the first two words are read as an id all the same. -/
  | unreadable (header : Id)
  deriving DecidableEq, Repr

/-- The two words at the start of a record. -/
def Record.header : Record → Id
  | .decoded obj => obj.id
  | .unreadable header => header

/-- An object that stands for a free id. -/
def freeObject (inst : ℕ) : Object := { id := ⟨dbFree, inst⟩, parent := 0, children := [], props := [] }

/-- `NI_UNCHECKED`. -/
def niUnchecked : ℕ := 2 ^ 32 - 2

/-- `file_handle` with the files, and the cache of `obj_handle`. -/
structure Store where
  /-- The size of a record in the file, which is an old one or a big one. -/
  blocksize : ℕ
  highestId : ℕ
  /-- The instances of the directories, `NI_INDEX_NULL` for a free id, `NI_UNCHECKED` for one that
  was not looked at since startup. -/
  instances : ℕ → ℕ
  records : ℕ → Record
  cache : ℕ → Option Object
  /-- How often `obj_commit` was called for an id; no code looks at it. -/
  commits : ℕ → ℕ
  /-- The ids for which `file_idunalloc` failed; no code looks at it. -/
  leaked : List ℕ

/-- A new database. -/
def Store.empty : Store where
  blocksize := 512
  highestId := 0
  instances := fun _ => niIndexNull
  records := fun _ => .decoded (freeObject 0)
  cache := fun _ => none
  commits := fun _ => 0
  leaked := []

/-- The writes of a request, by the place in the code that makes them: the status of those that
fail. -/
structure Writes where
  /-- `file_idunalloc` in `id_is_free`, of an unreadable object. -/
  delete : ℕ → Option Status
  /-- `file_generate`. -/
  generate : ℕ → Option Status
  /-- `obj_commit` of the new directory in `ni_create`. -/
  child : Option Status
  /-- `obj_commit` of the directory that the request modifies. -/
  self : Option Status
  /-- `obj_unalloc`, of the directory that `ni_destroy` removes or `ni_create` gives up. -/
  unalloc : Option Status

/-- All writes succeed. -/
def Writes.all : Writes := ⟨fun _ => none, fun _ => none, none, none, none⟩

namespace Store

variable (s : Store)

def setInstance (i inst : ℕ) : Store :=
  { s with instances := update s.instances i inst }

def setRecord (i : ℕ) (record : Record) : Store :=
  { s with records := update s.records i record }

def setCache (i : ℕ) (obj : Option Object) : Store :=
  { s with cache := update s.cache i obj }

def leak (i : ℕ) : Store := { s with leaked := i :: s.leaked }

def count (i : ℕ) : Store :=
  { s with commits := update s.commits i (s.commits i + 1) }

section Fields

variable {s} {i n : ℕ} {record : Record} {obj : Option Object}

@[simp] theorem instances_setInstance :
    (s.setInstance i n).instances = update s.instances i n := rfl

@[simp] theorem records_setInstance : (s.setInstance i n).records = s.records := rfl

@[simp] theorem highestId_setInstance : (s.setInstance i n).highestId = s.highestId := rfl

@[simp] theorem blocksize_setInstance : (s.setInstance i n).blocksize = s.blocksize := rfl

@[simp] theorem cache_setInstance : (s.setInstance i n).cache = s.cache := rfl

@[simp] theorem records_setRecord :
    (s.setRecord i record).records = update s.records i record := rfl

@[simp] theorem highestId_setRecord : (s.setRecord i record).highestId = s.highestId := rfl

@[simp] theorem cache_setRecord : (s.setRecord i record).cache = s.cache := rfl

@[simp] theorem cache_setCache : (s.setCache i obj).cache = update s.cache i obj := rfl

end Fields

/-! ## The file layer -/

/-- `file_read`. -/
def fileRead (i : ℕ) : Except Status Object × Store :=
  if i ≥ s.highestId then (.error .badid, s)
  else
    match s.records i with
    | .unreadable _ => (.error .badid, s)
    | .decoded obj =>
      if obj.id.object = dbFree then (.error .badid, s.setInstance i niIndexNull)
      else if obj.id.object ≠ i then (.error .systemerr, s.setInstance i niIndexNull)
      else (.ok obj, s.setInstance i obj.id.inst)

/-- `file_write`. -/
def fileWrite (fails : Option Status) (obj : Object) : Except Status Unit × Store :=
  match fails with
  | some status => (.error status, s)
  | none =>
    (.ok (), (s.setRecord obj.id.object (.decoded obj)).setInstance obj.id.object obj.id.inst)

/-- `file_idunalloc`. -/
def fileIdunalloc (fails : Option Status) (id : Id) : Except Status Unit × Store :=
  match fails with
  | some status => (.error status, s.leak id.object)
  | none =>
    (.ok (), (s.setRecord id.object (.decoded (freeObject id.inst))).setInstance id.object
      niIndexNull)

/-- `file_instance`. -/
def fileInstance (i : ℕ) : Id × Store :=
  (⟨i, (s.records i).header.inst⟩, s.setInstance i (s.records i).header.inst)

/-- What `id_is_free` does about an id that was not looked at since startup: an object that cannot
be read is deleted. -/
def checkId (w : Writes) (dir : ℕ) : Store :=
  let id := (s.records dir).header
  if id.object = dbFree then s.setInstance dir niIndexNull
  else
    match s.fileRead id.object with
    | (.ok _, s') => s'
    | (.error _, s') => (s'.fileIdunalloc (w.delete dir) id).2.setInstance dir niIndexNull

/-- `id_is_free`. -/
def idIsFree (w : Writes) (dir : ℕ) : Bool × Store :=
  if s.instances dir ≠ niUnchecked then (s.instances dir = niIndexNull, s)
  else ((s.checkId w dir).instances dir = niIndexNull, s.checkId w dir)

/-- `file_generate`.  The array of instances is given the object id. -/
def fileGenerate (w : Writes) (inst : ℕ) : Except Status Id × Store :=
  -- `fseek` takes a `long`, and refuses an offset that is none
  if 2 ^ 31 ≤ s.highestId * s.blocksize % 2 ^ 32 then (.error .systemerr, s)
  else
    match w.generate s.highestId with
    | some status => (.error status, s)
    | none =>
      (.ok ⟨s.highestId, inst⟩,
        { (s.setRecord s.highestId (.decoded (freeObject inst))).setInstance s.highestId
            s.highestId with highestId := s.highestId + 1 })

/-- The loop of `file_idalloc`. -/
def findFree (w : Writes) : List ℕ → Store → Option ℕ × Store
  | [], s => (none, s)
  | i :: rest, s =>
    match s.idIsFree w i with
    | (true, s') => (some i, s')
    | (false, s') => findFree w rest s'

/-- `file_idalloc`. -/
def fileIdalloc (w : Writes) : Except Status Id × Store :=
  match findFree w (List.range s.highestId) s with
  | (some i, s') => (.ok (s'.fileInstance i).1, (s'.fileInstance i).2)
  | (none, s') => s'.fileGenerate w 0

/-- The loop of `file_regenerate`, which fills the gap before the id with free ones. -/
def fillGap (w : Writes) : ℕ → Store → Except Status Unit × Store
  | 0, s => (.ok (), s)
  | n + 1, s =>
    match s.fileGenerate w 0 with
    | (.error status, s') => (.error status, s')
    | (.ok id, s') => fillGap w n (s'.setInstance id.object niIndexNull)

/-- `file_regenerate`. -/
def fileRegenerate (w : Writes) (id : Id) : Except Status Unit × Store :=
  if id.object ≥ s.highestId then
    match fillGap w (id.object - s.highestId) s with
    | (.error status, s') => (.error status, s')
    | (.ok _, s') =>
      match s'.fileGenerate w id.inst with
      | (.error status, s'') => (.error status, s'')
      | (.ok _, s'') => (.ok (), s'')
  else
    match s.idIsFree w id.object with
    | (false, s') => (.error .alive, s')
    | (true, s') => (.ok (), (s'.fileInstance id.object).2)

/-- `file_rootid`. -/
def fileRootid (w : Writes) : Except Status Id × Store :=
  if 0 < s.highestId then
    match s.idIsFree w 0 with
    | (false, s') => (.ok ⟨0, s'.instances 0⟩, s')
    | (true, s') => s'.fileIdalloc w
  else s.fileIdalloc w

/-! ## The object layer -/

/-- `obj_alloc` and `obj_regenerate`: the id of the new directory, before its first commit. -/
def objAlloc (w : Writes) (id : Id) : Except Status Id × Store :=
  if id.object ≠ niIndexNull then
    let id' : Id := ⟨id.object, unbump id.inst⟩
    match s.fileRegenerate w id' with
    | (.error status, s') => (.error status, s')
    | (.ok _, s') => (.ok id', s')
  else s.fileIdalloc w

/-- `obj_lookup` for reading. -/
def objLookupRead (i : ℕ) : Except Status Object × Store :=
  match s.cache i with
  | some obj => (.ok obj, s)
  | none =>
    match s.fileRead i with
    | (.error status, s') => (.error status, s')
    | (.ok obj, s') => (.ok obj, s'.setCache i (some obj))

/-- `obj_lookup_root`. -/
def objLookupRoot (w : Writes) : Except Status Object × Store :=
  match s.fileRootid w with
  | (.error status, s') => (.error status, s')
  | (.ok id, s') => s'.objLookupRead id.object

/-- `obj_lookup` for writing: the object leaves the cache. -/
def objLookupWrite (id : Id) : Except Status Object × Store :=
  match s.cache id.object with
  | some obj =>
    if obj.id.inst ≠ id.inst then (.error .stale, s.setCache id.object none)
    else (.ok obj, s.setCache id.object none)
  | none =>
    match s.fileRead id.object with
    | (.error status, s') => (.error status, s')
    | (.ok obj, s') => if obj.id.inst ≠ id.inst then (.error .stale, s') else (.ok obj, s')

/-- `obj_commit`, with the object as it is afterwards. -/
def objCommit (fails : Option Status) (obj : Object) : Except Status Unit × Object × Store :=
  let obj' := { obj with id := ⟨obj.id.object, bump obj.id.inst⟩ }
  let s' := s.count obj.id.object
  ((s'.fileWrite fails obj').1, obj', (s'.fileWrite fails obj').2)

/-- `obj_unalloc`: the status is ignored. -/
def objUnalloc (fails : Option Status) (obj : Object) : Store := (s.fileIdunalloc fails obj.id).2

end Store

end Darwin.Netinfo
