import Mathlib.Logic.Function.Iterate
import Darwin.Netinfo.Server.Requests

/-!
# The transfer of a NetInfo database

A master sends its database as its checksum, its highest id and its directories, each before its
children (`readall.c`).  A clone writes them into an empty directory (`xdr_writeall` of `ni_dir.c`)
without transactions, and opens what it has written with a check of the database (`checkdb` of
`ni_file.c`).

Every file operation succeeds here.  The recursions over the database have a bound for their depth;
with a smaller one than the database needs they fail.
-/

namespace Darwin.Netinfo.Transfer

open Darwin.Lib
open Function (update)

/-! ## The master -/

/-- What `readall` sends after the status. -/
structure Stream where
  checksum : ℕ
  highestId : ℕ
  objects : List Object
  deriving DecidableEq, Repr

/-- The loop of `doit` over the children. -/
def doitAll (doit : ℕ → Store → Option (List Object) × Store) :
    List ℕ → Store → Option (List Object) × Store
  | [], s => (some [], s)
  | c :: children, s =>
    match doit c s with
    | (none, s) => (none, s)
    | (some objects, s) =>
      match doitAll doit children s with
      | (none, s) => (none, s)
      | (some rest, s) => (some (objects ++ rest), s)

/-- `doit`.  `ni_parent`, `ni_read` and `ni_children` read the same directory one after the
other. -/
def doit : ℕ → ℕ → Store → Option (List Object) × Store
  | 0, _, s => (none, s)
  | n + 1, id, s =>
    match s.objLookupRead id with
    | (.error _, s) => (none, s)
    | (.ok object, s) =>
      match doitAll (doit n) object.children s with
      | (none, s) => (none, s)
      | (some rest, s) => (some (object :: rest), s)

/-- `readall`. -/
def readall (depth : ℕ) (w again : Writes) (s : Store) (dbChecksum : ℕ) : Option Stream :=
  match s.root w again with
  | (.error _, _) => none
  | (.ok root, s) =>
    (doit depth root.object s).1.map fun objects => ⟨dbChecksum, s.highestId, objects⟩

/-! ## The clone -/

/-- `DFL_BLOCKSIZE`. -/
def dflBlocksize : ℕ := 512

/-- `file_handle` with the files. -/
structure Files where
  disk : Disk
  highestId : ℕ
  instances : ℕ → ℕ

/-- What `file_init` makes of an empty directory. -/
def Files.new : Files := ⟨⟨[], fun _ => none, []⟩, 0, fun _ => niIndexNull⟩

/-- The block of a free id that `file_grow` writes. -/
def freeBlock : Bytes := encodeLong dbFree ++ List.replicate (dflBlocksize - 4) 0

/-- One round of the loop of `file_grow`. -/
def growOne (f : Files) : Files where
  disk := { f.disk with
    collection := writeAt 0 f.disk.collection (f.highestId * dflBlocksize) freeBlock }
  highestId := f.highestId + 1
  instances := update f.instances f.highestId niIndexNull

/-- `file_grow`. -/
def fileGrow (f : Files) (toindex : ℕ) : Files := growOne^[toindex + 1 - f.highestId] f

/-- `ser_fastencode` into the block of the directory, or into its extension file. -/
def fastencode (encode : Object → Bytes) (f : Files) (obj : Object) : Files where
  disk :=
    if (encode obj).length ≤ dflBlocksize then
      { f.disk with
        collection := writeAt 0 f.disk.collection (obj.id.object * dflBlocksize) (encode obj) }
    else
      { f.disk with
        extension := update f.disk.extension obj.id.object (some (encode obj)) }
  highestId := f.highestId
  instances := update f.instances obj.id.object obj.id.inst

/-- `file_forcewrite`. -/
def fileForcewrite (encode : Object → Bytes) (maxid : ℕ) (f : Files) (obj : Object) :
    Option Files :=
  if obj.id.object ≥ f.highestId then
    if obj.id.object > maxid then none
    else some (fastencode encode (fileGrow f obj.id.object) obj)
  else some (fastencode encode f obj)

/-- The loop of `xdr_writeall`, which ends at the first object that cannot be written. -/
def forcewriteAll (encode : Object → Bytes) (maxid : ℕ) : List Object → Files → Bool × Files
  | [], f => (true, f)
  | obj :: objects, f =>
    match fileForcewrite encode maxid f obj with
    | none => (false, f)
    | some f => forcewriteAll encode maxid objects f

/-- `xdr_writeall`, with what it has written when it returns.  A checksum of zero is taken for a
database that is up to date. -/
def writeall (encode : Object → Bytes) (stream : Stream) : Bool × Files :=
  if stream.checksum = 0 then (false, Files.new)
  else forcewriteAll encode stream.highestId stream.objects Files.new

/-! ## Opening the copy -/

/-- The bytes of a record: its extension file, or the collection from its block on. -/
def Files.record (f : Files) (i : ℕ) : Bytes :=
  match f.disk.extension i with
  | some bytes => bytes
  | none => f.disk.collection.drop (i * dflBlocksize)

/-- `file_read`, which keeps the instance of what it reads. -/
def Files.read (codec : Codec Object) (f : Files) (i : ℕ) : Option Object × Files :=
  match fileRead codec dflBlocksize f.highestId f.disk i with
  | some obj => (some obj, { f with instances := update f.instances i obj.id.inst })
  | none =>
    -- a free record or one of another id is marked, one that is no object is not
    match codec.decode (f.record i) with
    | some _ =>
      (none, if i ≥ f.highestId then f
        else { f with instances := update f.instances i niIndexNull })
    | none => (none, f)

/-- `readit`, and whether the directory could be read; of the children, the status is ignored. -/
def readit (codec : Codec Object) : ℕ → ℕ → Files → Option (Bool × Files)
  | 0, _, _ => none
  | n + 1, which, f =>
    match f.read codec which with
    | (none, f) => some (false, f)
    | (some obj, f) =>
      (obj.children.foldl (fun f? c => f?.bind fun f => (readit codec n c f).map Prod.snd)
        (some f)).map fun f => (true, f)

/-- `file_idunalloc`, with what `transact` makes of the files. -/
def Files.idunalloc (encode : Object → Bytes) (f : Files) (id : ℕ) (inst : ℕ) : Files where
  disk := applyOps f.disk (storeOps dflBlocksize id (encode (freeObject inst))
    [encode (freeObject inst)])
  highestId := f.highestId
  instances := update f.instances id niIndexNull

/-- `file_objectid`: the first two words of a record. -/
def Files.objectid (f : Files) (i : ℕ) : ℕ × ℕ :=
  match decodeLong (f.record i) with
  | none => (0, 0)
  | some (object, rest) => (object, ((decodeLong rest).map Prod.fst).getD 0)

/-- A round of the loop of `checkdb`: what was not reached is freed, and the highest id that was is
kept. -/
def checkOne (encode : Object → Bytes) (state : Files × Option ℕ) (i : ℕ) : Files × Option ℕ :=
  let f := state.1
  if f.instances i = niIndexNull then
    let f' := if (f.objectid i).1 ≠ dbFree then
      f.idunalloc encode (f.objectid i).1 (f.objectid i).2 else f
    ({ f' with instances := update f'.instances i niIndexNull }, state.2)
  else (f, some i)

/-- `truncate_as_necessary`. -/
def Files.truncate (f : Files) (last : ℕ) : Files :=
  { f with
    disk := { f.disk with collection := f.disk.collection.take ((last + 1) * dflBlocksize) }
    highestId := last + 1 }

/-- `checkdb`, which fails if there is no root. -/
def checkdb (encode : Object → Bytes) (codec : Codec Object) (depth : ℕ) (f : Files) :
    Option Files :=
  match readit codec depth 0 f with
  | none => none
  | some (false, _) => none
  | some (true, f) =>
    match (List.range f.highestId).foldl (checkOne encode) (f, none) with
    | (f, none) => some f
    | (f, some last) => some (f.truncate last)

/-- `file_init` on files that are there, with nothing in the transaction file and no saved
checksum. -/
def fileInit (encode : Object → Bytes) (codec : Codec Object) (depth : ℕ) (d : Disk) :
    Option Files :=
  let f : Files := ⟨d, Netinfo.highestId dflBlocksize d, fun _ => niIndexNull⟩
  if f.highestId = 0 then some f else checkdb encode codec depth f

/-- The whole transfer: the files of the clone after it has opened them. -/
def transfer (encode : Object → Bytes) (codec : Codec Object) (depth : ℕ) (w again : Writes)
    (s : Store) (dbChecksum : ℕ) : Option Files :=
  (readall depth w again s dbChecksum).bind fun stream =>
    fileInit encode codec depth (writeall encode stream).2.disk

end Darwin.Netinfo.Transfer
