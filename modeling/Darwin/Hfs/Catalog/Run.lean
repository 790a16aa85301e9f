import Darwin.Hfs.Catalog.Move

/-!
# Runs of catalog calls

From a catalog with a root folder only, calls that create, delete, move and rename nodes keep the
catalog sound as long as they are regular.

## Main results

* `catalog_sound` - what holds after every run of regular calls
* `mangled_move_loses_thread` - the thread of a node that is moved under a mangled name does not find
  it any more
-/

namespace Darwin.Hfs.Catalog

open List Darwin.Lib

/-- The calls that change the catalog. -/
inductive Call where
  | create (parentID : ℕ) (name : List UInt8) (kind : Kind)
  | delete (parentID : ℕ) (name : List UInt8)
  | moveRename (srcParentID : ℕ) (srcName : List UInt8) (dstParentID : ℕ) (dstName : List UInt8)

/-- A call returns. -/
inductive Step (volume : Volume) : Call → Volume → Prop
  | create (parentID : ℕ) (name : List UInt8) (kind : Kind) :
      Step volume (.create parentID name kind) (volume.createCatalogNode parentID name kind).2
  | delete (parentID : ℕ) (name : List UInt8) :
      Step volume (.delete parentID name) (volume.deleteCatalogNode parentID name).2
  | moveRename (srcParentID : ℕ) (srcName : List UInt8) (dstParentID : ℕ) (dstName : List UInt8)
      (fuel : ℕ) (err : OSErr) (volume' : Volume)
      (returned : volume.moveRenameCatalogNode fuel srcParentID srcName dstParentID dstName =
        some (err, volume')) :
      Step volume (.moveRename srcParentID srcName dstParentID dstName) volume'

/-- An id is left for a new node, and a node is moved under its own name. -/
def Call.Regular (volume : Volume) : Call → Prop
  | .create _ _ _ => volume.vcbNxtCNID + 1 < 2 ^ 32
  | .delete _ _ => True
  | .moveRename srcParentID srcName dstParentID dstName =>
    volume.Regular srcParentID srcName dstParentID dstName

/-- The catalog holds the root folder and its thread only. -/
structure Volume.Initial (volume : Volume) (rootName : List UInt16) : Prop where
  records : ∃ textEncoding, volume.records =
    [(⟨fsRtParID, rootName⟩, .folder fsRtDirID 0 textEncoding),
      (⟨fsRtDirID, []⟩, .thread .folder fsRtParID rootName)]
  next : kHFSFirstUserCatalogNodeID ≤ volume.vcbNxtCNID ∧ volume.vcbNxtCNID < 2 ^ 32
  files : volume.vcbFilCnt = 0
  folders : volume.vcbDirCnt = 0

/-- The volumes that runs of regular calls lead to. -/
inductive Reachable : Volume → Prop
  | initial {volume : Volume} {rootName : List UInt16} (initial : volume.Initial rootName) :
      Reachable volume
  | step {volume volume' : Volume} {call : Call} (reachable : Reachable volume)
      (regular : call.Regular volume) (step : Step volume call volume') : Reachable volume'

/-- The folders above an id, up to the root. -/
inductive ReachesRoot (records : Records) : ℕ → Prop
  | root : ReachesRoot records fsRtDirID
  | up {key : CatalogKey} {data : CatalogRecord} {kind : Kind} {n : ℕ} (mem : (key, data) ∈ records)
      (node : data.node? = some (kind, n)) (above : ReachesRoot records key.parentID) :
      ReachesRoot records n

/-- The catalog and the counters of the volume agree. -/
structure Volume.Sound (volume : Volume) : Prop where
  /-- No two records have the same key. -/
  keys : ∀ key data key' data', (key, data) ∈ volume.records → (key', data') ∈ volume.records →
    compareExtendedCatalogKeys key key' = 0 → (key, data) = (key', data')
  /-- A folder or file has a thread, which finds it. -/
  threaded : ∀ key data kind n, (key, data) ∈ volume.records → data.node? = some (kind, n) →
    ∃ parentID nodeName,
      searchBTreeRecord volume.records ⟨n, []⟩ = some (⟨n, []⟩, .thread kind parentID nodeName) ∧
      searchBTreeRecord volume.records ⟨parentID, nodeName⟩ = some (key, data)
  /-- A thread belongs to a folder or file. -/
  threads : ∀ key kind parentID nodeName, (key, .thread kind parentID nodeName) ∈ volume.records →
    key.nodeName = [] ∧ ∃ key' data,
      searchBTreeRecord volume.records ⟨parentID, nodeName⟩ = some (key', data) ∧
      data.node? = some (kind, key.parentID)
  /-- A folder counts what is in it. -/
  valences : ∀ key n valence textEncoding, (key, .folder n valence textEncoding) ∈ volume.records →
    valence = volume.records.countP fun e => e.1.parentID = n ∧ e.2.node?.isSome
  /-- The volume counts its files. -/
  files : volume.vcbFilCnt = volume.records.countP fun e => e.2.node?.map Prod.fst = some .file
  /-- The volume counts its folders other than the root. -/
  folders : volume.vcbDirCnt = volume.records.countP fun e =>
    e.2.node?.map Prod.fst = some .folder ∧ e.2.node? ≠ some (.folder, fsRtDirID)
  /-- There is a root folder. -/
  root : ∃ key valence textEncoding, (key, .folder fsRtDirID valence textEncoding) ∈ volume.records
  /-- Ids are distinct. -/
  ids : ∀ key data key' data' kind kind' n, (key, data) ∈ volume.records →
    (key', data') ∈ volume.records → data.node? = some (kind, n) → data'.node? = some (kind', n) →
    (key, data) = (key', data')
  /-- Ids are below the next one. -/
  below : ∀ key data kind n, (key, data) ∈ volume.records → data.node? = some (kind, n) →
    n < volume.vcbNxtCNID
  /-- The way up ends at the root folder. -/
  reaches : ∀ key data kind n, (key, data) ∈ volume.records → data.node? = some (kind, n) →
    ReachesRoot volume.records n

variable {volume volume' : Volume} {call : Call}

/-! ## One call -/

theorem Step.consistent (step : Step volume call volume') (regular : call.Regular volume)
    (consistent : volume.Consistent) : volume'.Consistent := by
  cases step with
  | create parentID name kind => exact consistent.create parentID name kind regular
  | delete parentID name => exact consistent.delete parentID name
  | moveRename srcParentID srcName dstParentID dstName fuel err volume' returned =>
    exact consistent.moveRename regular returned

theorem exists_properMove (consistent : volume.Consistent) {dstFolderKey : CatalogKey}
    {folderID valence textEncoding : ℕ}
    (mem : (dstFolderKey, .folder folderID valence textEncoding) ∈ volume.records)
    (srcRecord : CatalogRecord) :
    ∃ fuel err, properMove volume.records fuel srcRecord folderID dstFolderKey = some err := by
  have tree := consistent.tree
  have folder := mem_skeleton mem
  cases srcRecord with
  | file => exact ⟨0, .noErr, rfl⟩
  | thread => exact ⟨0, .noErr, rfl⟩
  | folder srcFolderID _ _ =>
    simp only [properMove]
    split_ifs
    · exact ⟨0, .badMovErr, rfl⟩
    by_cases top : folderID = 2
    · subst top
      have parent : dstFolderKey.parentID = 1 := tree.rootPlace _ _ folder
      refine ⟨0, .noErr, ?_⟩
      rw [ancestorLoop, parent]
      rfl
    · obtain ⟨-, k, above⟩ := tree.parents _ _ _ folder top
      exact exists_ancestorLoop tree consistent.positive srcFolderID (tree.reaches _ _ _ above)

/-- A call returns, since the loop over the ancestors ends. -/
theorem Volume.Consistent.exists_step (consistent : volume.Consistent) (call : Call) :
    ∃ volume', Step volume call volume' := by
  cases call with
  | create parentID name kind => exact ⟨_, .create parentID name kind⟩
  | delete parentID name => exact ⟨_, .delete parentID name⟩
  | moveRename srcParentID srcName dstParentID dstName =>
    have tree := consistent.tree
    have returns : ∃ fuel result, volume.moveRenameCatalogNode fuel srcParentID srcName dstParentID
        dstName = some result := by
      simp only [Volume.moveRenameCatalogNode]
      split
      · exact ⟨0, _, rfl⟩
      split
      · exact ⟨0, _, rfl⟩
      split
      · exact ⟨0, _, rfl⟩
      split_ifs
      · exact ⟨0, _, rfl⟩
      · exact ⟨0, _, rfl⟩
      split
      · rename_i srcRecord _ _ _ dstFolderKey folderID valence textEncoding located
        obtain ⟨mem, -⟩ := locate_spec tree consistent.positive located
        obtain ⟨fuel, err, ends⟩ := exists_properMove consistent mem srcRecord
        refine ⟨fuel, ?_⟩
        rw [ends]
        cases err <;> exact ⟨_, rfl⟩
      · exact ⟨0, _, rfl⟩
      · exact ⟨0, _, rfl⟩
    obtain ⟨fuel, ⟨err, volume'⟩, returned⟩ := returns
    exact ⟨volume', .moveRename srcParentID srcName dstParentID dstName fuel err volume' returned⟩

/-! ## The root folder -/

theorem Volume.Initial.consistent {rootName : List UInt16} (initial : volume.Initial rootName) :
    volume.Consistent := by
  obtain ⟨⟨textEncoding, records⟩, next, files, folders⟩ := initial
  rw [kHFSFirstUserCatalogNodeID] at next
  let place := CatalogKey.place ⟨fsRtParID, rootName⟩
  have skel : skeleton volume.records =
      [(place, .node .folder 2), (⟨2, none⟩, .thread .folder place)] := by
    rw [records]
    rfl
  have parent : place.parent = 1 := rfl
  constructor
  case tree =>
    rw [skel]
    constructor
    case distinct =>
      rw [distinctKeys_cons, distinctKeys_cons]
      refine ⟨fun e mem => ?_, fun e mem => (nomatch mem), nodup_nil⟩
      rw [mem_singleton.mp mem]
      intro same
      have : (2 : ℕ) = 1 := congrArg Place.parent same
      cases this
    case threaded =>
      intro k kind n mem
      simp only [mem_cons, Prod.mk.injEq, Item.node.injEq, reduceCtorEq, and_false,
        not_mem_nil, or_false] at mem
      obtain ⟨rfl, rfl, rfl⟩ := mem
      exact mem_cons_of_mem _ mem_cons_self
    case threads =>
      intro k kind target mem
      simp only [mem_cons, Prod.mk.injEq, Item.thread.injEq, reduceCtorEq, and_false,
        not_mem_nil, or_false, false_or] at mem
      obtain ⟨rfl, rfl, rfl⟩ := mem
      exact ⟨rfl, mem_cons_self⟩
    case root => exact ⟨place, mem_cons_self⟩
    case rootPlace =>
      intro k kind mem
      simp only [mem_cons, Prod.mk.injEq, Item.node.injEq, reduceCtorEq, and_false,
        not_mem_nil, or_false] at mem
      rw [mem.1]
      exact parent
    case parents =>
      intro k kind n mem other
      simp only [mem_cons, Prod.mk.injEq, Item.node.injEq, reduceCtorEq, and_false,
        not_mem_nil, or_false] at mem
      exact absurd mem.2.2 other
    case reaches =>
      intro k kind n mem
      simp only [mem_cons, Prod.mk.injEq, Item.node.injEq, reduceCtorEq, and_false,
        not_mem_nil, or_false] at mem
      rw [mem.2.2]
      exact .root
  case valences =>
    intro key n valence textEncoding' mem
    rw [records] at mem
    simp only [mem_cons, Prod.mk.injEq, CatalogRecord.folder.injEq, reduceCtorEq, and_false,
      not_mem_nil, or_false] at mem
    obtain ⟨-, rfl, rfl, -⟩ := mem
    rw [skel, children_cons_elsewhere (by rw [parent]; decide), children_cons_noName rfl]
    rfl
  case files =>
    rw [skel, nodes_cons_node, nodes_cons_thread, files]
    rfl
  case folders =>
    rw [skel, nodes_cons_node, nodes_cons_thread, folders]
    rfl
  case ids =>
    intro k kind n mem
    rw [skel] at mem
    simp only [mem_cons, Prod.mk.injEq, Item.node.injEq, reduceCtorEq, and_false,
      not_mem_nil, or_false] at mem
    exact .inl mem.2.2
  case next => exact next

/-! ## Runs -/

theorem Reachable.consistent (reachable : Reachable volume) : volume.Consistent := by
  induction reachable with
  | initial initial => exact initial.consistent
  | step reachable regular step ih => exact step.consistent regular ih

theorem Reaches.reachesRoot {records : Records} {n : ℕ} (reaches : Reaches (skeleton records) n) :
    ReachesRoot records n := by
  induction reaches with
  | root => exact .root
  | up mem rest ih =>
    obtain ⟨key, data, inside', rfl, item⟩ := exists_of_mem_skeleton mem
    exact .up inside' (node?_eq_some.mpr item) ih

/-- The number of records of a kind. -/
theorem nodes_skeleton (records : Records) (kind : Kind) :
    nodes (skeleton records) kind =
      records.countP fun e => e.2.node?.map Prod.fst = some kind := by
  rw [nodes, skeleton, countP_map]
  refine countP_congr fun e _ => ?_
  obtain ⟨key, data⟩ := e
  cases data <;> simp [entry, CatalogRecord.item, CatalogRecord.node?]

/-- The root folder is the one that is not counted. -/
theorem Volume.Consistent.folders_eq (consistent : volume.Consistent) :
    volume.vcbDirCnt = volume.records.countP fun e =>
      e.2.node?.map Prod.fst = some .folder ∧ e.2.node? ≠ some (.folder, fsRtDirID) := by
  have tree := consistent.tree
  obtain ⟨k, root⟩ := tree.root
  obtain ⟨key, valence, textEncoding, mem, -⟩ := exists_folder_of_mem root
  obtain ⟨rest, -, perm⟩ := delete_spec tree.distinct mem rfl
  have counted := consistent.folders
  rw [nodes_skeleton, perm.countP_eq, countP_cons_of_pos (by rfl)] at counted
  rw [perm.countP_eq, countP_cons_of_neg (by simp [CatalogRecord.node?, fsRtDirID])]
  rw [Nat.succ.inj counted]
  refine countP_congr fun e inside' => ?_
  simp only [decide_eq_true_eq, ne_eq]
  refine (and_iff_left ?_).symm
  -- a second record with this id would have the same key
  intro node
  have old := perm.mem_iff.mpr (mem_cons_of_mem _ inside')
  have entry' := mem_skeleton old
  rw [node?_eq_some.mp node] at entry'
  exact (distinct_of_perm tree.distinct perm).1 _ (mem_skeleton inside')
    (tree.eq_of_id entry' (mem_skeleton mem)).1

theorem Volume.Consistent.sound (consistent : volume.Consistent) : volume.Sound := by
  have tree := consistent.tree
  constructor
  case keys =>
    intro key data key' data' mem inside' same
    exact (distinct_of_skeleton tree.distinct).eq_of_key mem inside'
      ((compare_eq_zero_iff key key').mp same).symm
  case threaded =>
    intro key data kind n mem node
    obtain ⟨parentID, nodeName, thread, target⟩ := tree.search_thread mem node
    exact ⟨parentID, nodeName, thread, (search_eq_some tree.distinct).mpr ⟨mem, target⟩⟩
  case threads =>
    intro key kind parentID nodeName mem
    obtain ⟨noName, node⟩ := tree.threads _ _ _ (mem_skeleton mem)
    obtain ⟨key', data, inside', place, item⟩ := exists_of_mem_skeleton node
    exact ⟨place_name_eq_none.mp noName, key', data,
      (search_eq_some tree.distinct).mpr ⟨inside', place⟩, node?_eq_some.mpr item⟩
  case valences =>
    intro key n valence textEncoding mem
    rw [consistent.valences key n valence textEncoding mem, children, skeleton, countP_map]
    have id := consistent.ids _ _ n (mem_skeleton mem)
    refine countP_congr fun e inside' => ?_
    obtain ⟨key', data⟩ := e
    have entry' := mem_skeleton inside'
    simp only [Function.comp_apply, decide_eq_true_eq]
    refine and_congr_right fun here => ?_
    have here' : key'.parentID = n := here
    cases node : data.node? with
    | none =>
      -- a thread has no name
      cases data with
      | thread kind parentID nodeName =>
        have noName := (tree.threads _ _ _ entry').1
        refine iff_of_false (fun named => ?_) (by simp)
        rw [entry, noName] at named
        cases named
      | folder => cases node
      | file => cases node
    | some found =>
      obtain ⟨kind, m⟩ := found
      rw [node?_eq_some.mp node] at entry'
      refine iff_of_true ?_ rfl
      by_cases top : m = 2
      · subst top
        have : key'.parentID = 1 := tree.rootPlace _ _ entry'
        omega
      · exact (tree.parents _ _ _ entry' top).1
  case files => rw [consistent.files, nodes_skeleton]
  case folders => exact consistent.folders_eq
  case root =>
    obtain ⟨k, root⟩ := tree.root
    obtain ⟨key, valence, textEncoding, mem, -⟩ := exists_folder_of_mem root
    exact ⟨key, valence, textEncoding, mem⟩
  case ids =>
    intro key data key' data' kind kind' n mem inside' node node'
    have entry₁ := mem_skeleton mem
    have entry₂ := mem_skeleton inside'
    rw [node?_eq_some.mp node] at entry₁
    rw [node?_eq_some.mp node'] at entry₂
    exact (distinct_of_skeleton tree.distinct).eq_of_key mem inside'
      (tree.eq_of_id entry₁ entry₂).1
  case below =>
    intro key data kind n mem node
    have entry' := mem_skeleton mem
    rw [node?_eq_some.mp node] at entry'
    exact consistent.below _ kind n entry'
  case reaches =>
    intro key data kind n mem node
    have entry' := mem_skeleton mem
    rw [node?_eq_some.mp node] at entry'
    exact (tree.reaches _ kind n entry').reachesRoot

/-- After every run of regular calls the catalog is sound, and every further call returns. -/
theorem catalog_sound (reachable : Reachable volume) :
    volume.Sound ∧ ∀ call, ∃ volume', Step volume call volume' :=
  ⟨reachable.consistent.sound, reachable.consistent.exists_step⟩

section Sample

/-- A volume called `v`, with nothing in its root folder. -/
def emptyVolume : Volume where
  records := [(⟨1, [0x76]⟩, .folder 2 0 0), (⟨2, []⟩, .thread .folder 1 [0x76])]
  vcbNxtCNID := 16
  vcbFilCnt := 0
  vcbDirCnt := 0
  vcbNmFls := 0
  vcbNmRtDirs := 0

/-- The same with a file `ab` in it, which gets the id 0x10, and a folder `d`. -/
def smallVolume : Volume where
  records :=
    [(⟨1, [0x76]⟩, .folder 2 2 0), (⟨2, []⟩, .thread .folder 1 [0x76]),
      (⟨2, [0x61, 0x62]⟩, .file 16 0), (⟨2, [0x64]⟩, .folder 17 0 0),
      (⟨16, []⟩, .thread .file 2 [0x61, 0x62]), (⟨17, []⟩, .thread .folder 2 [0x64])]
  vcbNxtCNID := 18
  vcbFilCnt := 1
  vcbDirCnt := 1
  vcbNmFls := 1
  vcbNmRtDirs := 1

theorem emptyVolume_initial : emptyVolume.Initial [0x76] :=
  ⟨⟨0, rfl⟩, ⟨by decide, by decide⟩, rfl, rfl⟩

/-- What the calls compute; the file keeps its name in the last of them. -/
theorem sampleCalls_computed :
    (emptyVolume.createCatalogNode 2 [0x61, 0x62] .file).1 = .noErr ∧
    (emptyVolume.createCatalogNode 2 [0x61, 0x62] .file).2.vcbNxtCNID + 1 < 2 ^ 32 ∧
    (emptyVolume.createCatalogNode 2 [0x61, 0x62] .file).2.createCatalogNode 2 [0x64] .folder =
      (.noErr, smallVolume) ∧
    (smallVolume.moveRenameCatalogNode 1 2 [0x61, 0x62] 17 [0x61, 0x62]).map
      (fun returned => (returned.1, returned.2.vcbFilCnt)) = some (.noErr, 1) ∧
    buildCatalogKeyUTF8 2 [0x61, 0x62] = .ok (⟨2, [0x61, 0x62]⟩, 0) := by
  decide +kernel

theorem smallVolume_reachable : Reachable smallVolume := by
  obtain ⟨-, room, created, -⟩ := sampleCalls_computed
  have room₀ : emptyVolume.vcbNxtCNID + 1 < 2 ^ 32 := by decide
  have first := (Reachable.initial emptyVolume_initial).step
    (show Call.Regular _ (.create _ _ _) from room₀) (.create 2 [0x61, 0x62] .file)
  have second := first.step (show Call.Regular _ (.create _ _ _) from room) (.create 2 [0x64] .folder)
  rwa [created] at second

/-- The file is moved into the folder under its name. -/
theorem catalog_sound_sample :
    ∃ volume, smallVolume.moveRenameCatalogNode 1 2 [0x61, 0x62] 17 [0x61, 0x62] =
        some (.noErr, volume) ∧
      volume.vcbFilCnt = 1 ∧ (volume.Sound ∧ ∀ call, ∃ volume', Step volume call volume') := by
  obtain ⟨-, -, -, moved, key⟩ := sampleCalls_computed
  obtain ⟨⟨result, volume⟩, returned, same⟩ := Option.map_eq_some_iff.mp moved
  obtain ⟨rfl, files⟩ := Prod.mk.inj same
  have regular : smallVolume.Regular 2 [0x61, 0x62] 17 [0x61, 0x62] := by
    intro srcKey textEncoding subject built located other
    rw [key] at built
    obtain ⟨rfl, -⟩ := Prod.mk.inj (Except.ok.inj built)
    exact ⟨fun _ => by decide +kernel, nofun⟩
  have reachable : Reachable volume := smallVolume_reachable.step
    (show Call.Regular _ (.moveRename 2 [0x61, 0x62] 17 [0x61, 0x62]) from regular)
    (.moveRename _ _ _ _ 1 .noErr volume returned)
  exact ⟨volume, returned, files, catalog_sound reachable⟩

/-- The volume after the file was moved by the name `a#10`. -/
def mangledVolume : Volume where
  records :=
    [(⟨1, [0x76]⟩, .folder 2 1 0), (⟨2, []⟩, .thread .folder 1 [0x76]),
      (⟨2, [0x64]⟩, .folder 17 1 0), (⟨16, []⟩, .thread .file 17 [0x61, 0x62]),
      (⟨17, []⟩, .thread .folder 2 [0x64]), (⟨17, [0x61, 0x23, 0x31, 0x30]⟩, .file 16 0)]
  vcbNxtCNID := 18
  vcbFilCnt := 1
  vcbDirCnt := 1
  vcbNmFls := 0
  vcbNmRtDirs := 1

/-- The file is called by a name that has its id in it, and moved into the folder under that name: it
is stored there as `a#10`, while its thread says `ab`. -/
theorem mangled_move_loses_thread :
    emptyVolume.Initial [0x76] ∧
    (emptyVolume.createCatalogNode 2 [0x61, 0x62] .file).1 = .noErr ∧
    (emptyVolume.createCatalogNode 2 [0x61, 0x62] .file).2.createCatalogNode 2 [0x64] .folder =
      (.noErr, smallVolume) ∧
    smallVolume.moveRenameCatalogNode 1 2 [0x61, 0x23, 0x31, 0x30] 17 [0x61, 0x23, 0x31, 0x30] =
      some (.noErr, mangledVolume) ∧
    ¬ mangledVolume.Sound := by
  obtain ⟨first, -, created, -⟩ := sampleCalls_computed
  have computed : smallVolume.moveRenameCatalogNode 1 2 [0x61, 0x23, 0x31, 0x30] 17
        [0x61, 0x23, 0x31, 0x30] = some (.noErr, mangledVolume) ∧
      searchBTreeRecord mangledVolume.records ⟨16, []⟩ =
        some (⟨16, []⟩, .thread .file 17 [0x61, 0x62]) ∧
      searchBTreeRecord mangledVolume.records ⟨17, [0x61, 0x62]⟩ = none := by
    decide +kernel
  obtain ⟨moved, stored, lost⟩ := computed
  refine ⟨emptyVolume_initial, first, created, moved, ?_⟩
  intro sound
  obtain ⟨parentID, nodeName, thread, finds⟩ := sound.threaded ⟨17, [0x61, 0x23, 0x31, 0x30]⟩
    (.file 16 0) .file 16 (by simp [mangledVolume]) rfl
  rw [stored] at thread
  injection Option.some.inj thread with _ same
  injection same with _ same₁ same₂
  subst same₁ same₂
  rw [lost] at finds
  cases finds

end Sample

end Darwin.Hfs.Catalog
