import Darwin.Hfs.Catalog.Invariant

/-!
# Creating and deleting nodes

`CreateCatalogNode` and `DeleteCatalogNode` keep a volume consistent.
-/

namespace Darwin.Hfs.Catalog

open List Darwin.Lib

variable {volume : Volume} {records : Records} {key : CatalogKey} {data : CatalogRecord}
  {kind : Kind} {n : ℕ}

/-! ## Ids -/

variable (consistent : volume.Consistent)

include consistent

theorem Volume.Consistent.positive (k : Place (List UInt16))
    (kind : Kind) (n : ℕ) (mem : (k, .node kind n) ∈ skeleton volume.records) : n ≠ 0 := by
  have := consistent.ids k kind n mem
  omega

theorem Volume.Consistent.below (k : Place (List UInt16))
    (kind : Kind) (n : ℕ) (mem : (k, .node kind n) ∈ skeleton volume.records) :
    n < volume.vcbNxtCNID := by
  have := consistent.ids k kind n mem
  have := consistent.next
  omega

/-- Nothing is stored under the next id. -/
theorem Volume.Consistent.fresh_id
    (e : Place (List UInt16) × Item (List UInt16)) (mem : e ∈ skeleton volume.records) :
    e.1 ≠ ⟨volume.vcbNxtCNID, none⟩ := by
  obtain ⟨k, item⟩ := e
  intro same
  have next := consistent.next
  have same' : k = ⟨volume.vcbNxtCNID, none⟩ := same
  subst same'
  cases item with
  | node kind n =>
    by_cases top : n = 2
    · subst top
      have : volume.vcbNxtCNID = 1 := consistent.tree.rootPlace _ kind mem
      omega
    · obtain ⟨named, -⟩ := consistent.tree.parents _ kind n mem top
      cases named
  | thread kind target =>
    obtain ⟨-, node⟩ := consistent.tree.threads _ kind target mem
    exact absurd (consistent.below target kind _ node) (lt_irrefl _)

/-- An id is taken. -/
theorem Volume.Consistent.takeId (room : volume.vcbNxtCNID + 1 < 2 ^ 32) :
    Volume.Consistent { volume with vcbNxtCNID := adjust 32 volume.vcbNxtCNID 1 } := by
  have next := consistent.next
  rw [adjust_one room]
  refine { consistent with ids := fun k kind n mem => ?_, next := ⟨?_, room⟩ }
  · have := consistent.ids k kind n mem
    show n = 2 ∨ 16 ≤ n ∧ n < volume.vcbNxtCNID + 1
    omega
  · show 16 ≤ volume.vcbNxtCNID + 1
    omega

omit consistent

theorem adjustVolumeCounts_records (volume : Volume) (kind : Kind) (delta : ℤ) :
    (volume.adjustVolumeCounts kind delta).records = volume.records ∧
      (volume.adjustVolumeCounts kind delta).vcbNxtCNID = volume.vcbNxtCNID := by
  cases kind <;> exact ⟨rfl, rfl⟩

theorem exists_folder_of_mem {k : Place (List UInt16)}
    (mem : (k, .node .folder n) ∈ skeleton records) :
    ∃ key valence textEncoding, (key, .folder n valence textEncoding) ∈ records ∧ key.place = k := by
  obtain ⟨key, data, inside', place, item⟩ := exists_of_mem_skeleton mem
  cases data with
  | folder folderID valence textEncoding =>
    injection item with _ same
    subst same
    exact ⟨key, valence, textEncoding, inside', place⟩
  | file => cases item
  | thread => cases item

theorem initCatalogRecord_node? (kind : Kind) (nodeID textEncoding : ℕ) :
    (initCatalogRecord kind nodeID textEncoding).node? = some (kind, nodeID) := by
  cases kind <;> rfl

/-! ## `CreateCatalogNode` -/

/-- The records of a new node and its thread are in the catalog, and the parent and the volume count
it. -/
theorem Volume.Consistent.created (consistent : volume.Consistent)
    (room : volume.vcbNxtCNID + 1 < 2 ^ 32) {nodeKey parentKey : CatalogKey}
    {textEncoding valence parentEncoding : ℕ} {records₂ : Records}
    (perm : records₂.Perm ((nodeKey, initCatalogRecord kind volume.vcbNxtCNID textEncoding) ::
      (⟨volume.vcbNxtCNID, []⟩, .thread kind nodeKey.parentID nodeKey.nodeName) :: volume.records))
    (named : nodeKey.place.name.isSome)
    (fresh : ∀ e ∈ skeleton volume.records, e.1 ≠ nodeKey.place)
    (parent : (parentKey, .folder nodeKey.parentID valence parentEncoding) ∈ volume.records)
    (located : parentKey.place = key.place) :
    ∃ volume₃, Volume.updateFolderCount { volume with
        records := records₂, vcbNxtCNID := adjust 32 volume.vcbNxtCNID 1 } key kind 1 =
      (.noErr, volume₃) ∧ (volume₃.adjustVolumeCounts kind 1).Consistent := by
  have next := consistent.next
  have skel : (skeleton records₂).Perm ((nodeKey.place, .node kind volume.vcbNxtCNID) ::
      (⟨volume.vcbNxtCNID, none⟩, .thread kind nodeKey.place) :: skeleton volume.records) := by
    have mapped := skeleton_perm perm
    rw [skeleton_cons, skeleton_cons, entry,
      node?_eq_some.mp (initCatalogRecord_node? kind volume.vcbNxtCNID textEncoding)] at mapped
    exact mapped
  have tree₂ : Tree (skeleton records₂) :=
    consistent.tree.create skel named ⟨parentKey.place, mem_skeleton parent⟩ fresh
      consistent.fresh_id
  have parent₂ : (parentKey, .folder nodeKey.parentID valence parentEncoding) ∈ records₂ :=
    perm.mem_iff.mpr (mem_cons_of_mem _ (mem_cons_of_mem _ parent))
  obtain ⟨volume₃, updated, perm₃, nextId', filCnt', dirCnt', valences⟩ :=
    @updateFolderCount_spec key parentKey nodeKey.parentID valence parentEncoding { volume with
      records := records₂, vcbNxtCNID := adjust 32 volume.vcbNxtCNID 1 } tree₂
      (locate_of_key tree₂.distinct parent₂ rfl located) parent₂ kind 1
  have nextId : volume₃.vcbNxtCNID = volume.vcbNxtCNID + 1 := nextId'.trans (adjust_one room)
  have filCnt : volume₃.vcbFilCnt = volume.vcbFilCnt := filCnt'
  have dirCnt : volume₃.vcbDirCnt = volume.vcbDirCnt := dirCnt'
  refine ⟨volume₃, updated, ?_⟩
  have all : (skeleton volume₃.records).Perm ((nodeKey.place, .node kind volume.vcbNxtCNID) ::
      (⟨volume.vcbNxtCNID, none⟩, .thread kind nodeKey.place) :: skeleton volume.records) :=
    perm₃.symm.trans skel
  have counted : ∀ m, children (skeleton volume₃.records) m =
      children (skeleton volume.records) m + if m = nodeKey.parentID then 1 else 0 := by
    intro m
    rw [children_perm all, children_cons_node named, children_cons_noName rfl]
    rfl
  have parentValence : valence = children (skeleton volume.records) nodeKey.parentID :=
    consistent.valences parentKey _ valence parentEncoding parent
  have nodesCounted : ∀ kind₁, nodes (skeleton volume₃.records) kind₁ =
      nodes (skeleton volume.records) kind₁ + if kind = kind₁ then 1 else 0 := by
    intro kind₁
    rw [nodes_perm all, nodes_cons_node, nodes_cons_thread]
  obtain ⟨records₄, nextId₄⟩ := adjustVolumeCounts_records volume₃ kind 1
  constructor
  case tree =>
    rw [records₄]
    exact tree₂.perm perm₃
  case valences =>
    intro key₁ m v textEncoding₁ mem
    rw [records₄] at mem ⊢
    rw [counted]
    rcases valences key₁ m v textEncoding₁ mem with ⟨rfl, rfl⟩ | ⟨other, inside₂⟩
    · have bound := consistent.tree.children_le consistent.below nodeKey.parentID
      rw [if_pos rfl, parentValence, adjust_one (by omega)]
    rw [if_neg other, add_zero]
    rcases mem_cons.mp (perm.mem_iff.mp inside₂) with new | old
    · -- the new folder is empty
      injection new with h₁ h₂
      cases kind with
      | file => cases h₂
      | folder =>
        injection h₂ with h₂ h₃
        subst h₂ h₃
        refine (consistent.tree.children_eq_zero ?_ (by omega)).symm
        intro k inside'
        exact absurd (consistent.below k .folder _ inside') (lt_irrefl _)
    · rcases mem_cons.mp old with thread | old
      · cases thread
      · exact consistent.valences key₁ m v textEncoding₁ old
  case files =>
    rw [records₄, nodesCounted, ← consistent.files]
    have bound := consistent.tree.nodes_le consistent.below .file
    rw [← consistent.files] at bound
    cases kind with
    | folder => exact filCnt
    | file =>
      show adjust 32 volume₃.vcbFilCnt 1 = _
      rw [filCnt]
      exact adjust_one (by omega)
  case folders =>
    rw [records₄, nodesCounted, ← consistent.folders]
    have bound := consistent.tree.nodes_le consistent.below .folder
    rw [← consistent.folders] at bound
    cases kind with
    | file => exact congrArg (· + 1) dirCnt
    | folder =>
      show adjust 32 volume₃.vcbDirCnt 1 + 1 = _
      rw [dirCnt]
      exact congrArg (· + 1) (adjust_one (by omega))
  case ids =>
    intro k kind₁ m mem
    rw [records₄] at mem
    rw [nextId₄, nextId]
    rcases mem_cons.mp (all.mem_iff.mp mem) with new | old
    · injection new with _ h₂
      injection h₂ with _ h₃
      omega
    rcases mem_cons.mp old with thread | old
    · cases thread
    · have := consistent.ids k kind₁ m old
      omega
  case next =>
    rw [nextId₄, nextId]
    exact ⟨by omega, room⟩

/-- The key that is built is in the folder that was asked for. -/
theorem build_parentID {parentID textEncoding : ℕ} {name : List UInt8}
    (built : buildCatalogKeyUTF8 parentID name = .ok (key, textEncoding)) :
    key.parentID = parentID := by
  rw [buildCatalogKeyUTF8] at built
  split_ifs at built
  · obtain ⟨rfl, -⟩ := Prod.mk.inj (Except.ok.inj built)
    rfl
  dsimp only at built
  split at built
  · obtain ⟨rfl, -⟩ := Prod.mk.inj (Except.ok.inj built)
    rfl
  · cases built
  · cases built

variable (consistent : volume.Consistent)

include consistent

theorem Volume.Consistent.create (parentID : ℕ) (name : List UInt8)
    (kind : Kind) (room : volume.vcbNxtCNID + 1 < 2 ^ 32) :
    (volume.createCatalogNode parentID name kind).2.Consistent := by
  have tree := consistent.tree
  rw [Volume.createCatalogNode.eq_def]
  split
  · exact consistent
  · rename_i threadKey parentsParentID parentName found
    obtain ⟨mem, place⟩ := (search_eq_some tree.distinct).mp found
    have thread := mem_skeleton mem
    rw [place] at thread
    -- the parent folder, where its thread says
    obtain ⟨-, folder⟩ := tree.threads _ .folder _ thread
    obtain ⟨parentKey, valence, parentEncoding, parent, parentPlace⟩ := exists_folder_of_mem folder
    split
    · exact consistent
    rename_i nodeKey textEncoding built
    have inFolder : nodeKey.parentID = parentID := build_parentID built
    dsimp only
    split
    · exact consistent.takeId room
    rename_i records₁ inserted
    obtain ⟨perm₁, fresh⟩ := insert_spec inserted
    -- a name is needed: the place without one is taken by the thread of the parent
    have named : nodeKey.place.name.isSome := by
      rw [Option.isSome_iff_ne_none]
      intro noName
      refine fresh _ thread ?_
      exact Place.ext inFolder.symm noName.symm
    have skel₁ := skeleton_perm perm₁
    rw [skeleton_cons] at skel₁
    have absent : ∀ e ∈ skeleton records₁,
        e.1 ≠ CatalogKey.place ⟨volume.vcbNxtCNID, []⟩ := by
      intro e mem
      rcases mem_cons.mp (skel₁.mem_iff.mp mem) with rfl | old
      · intro same
        have same' : nodeKey.place = ⟨volume.vcbNxtCNID, none⟩ := same
        rw [same'] at named
        cases named
      · exact consistent.fresh_id e old
    obtain ⟨records₂, inserted₂⟩ := @insert_isSome _ _
      (.thread kind nodeKey.parentID nodeKey.nodeName) absent
    obtain ⟨perm₂, -⟩ := insert_spec inserted₂
    have perm : records₂.Perm ((nodeKey, initCatalogRecord kind volume.vcbNxtCNID textEncoding) ::
          (⟨volume.vcbNxtCNID, []⟩, .thread kind nodeKey.parentID nodeKey.nodeName) ::
            volume.records) :=
      (perm₂.trans (perm₁.cons _)).trans (List.Perm.swap ..)
    rw [← inFolder] at parent
    obtain ⟨volume₃, updated, consistent₃⟩ :=
      consistent.created room perm named fresh parent parentPlace
    rw [inserted₂]
    dsimp only
    rw [updated]
    exact consistent₃
  · exact consistent

/-! ## `DeleteCatalogNode` -/

/-- The records of a node and its thread are taken out of the catalog, and neither the parent nor the
volume counts it any more. -/
theorem Volume.Consistent.deleted {records₂ : Records}
    {threadParent : ℕ} {threadName : List UInt16} (node : data.node? = some (kind, n))
    (perm : volume.records.Perm ((key, data) ::
      (⟨n, []⟩, .thread kind threadParent threadName) :: records₂))
    (target : key.place = CatalogKey.place ⟨threadParent, threadName⟩) (notRoot : n ≠ 2)
    (empty : children (skeleton volume.records) n = 0) :
    ∃ volume₃, Volume.updateFolderCount { volume with records := records₂ } ⟨key.parentID, []⟩ kind
        (-1) = (.noErr, volume₃) ∧ (volume₃.adjustVolumeCounts kind (-1)).Consistent := by
  have next := consistent.next
  have skel : (skeleton volume.records).Perm ((key.place, .node kind n) ::
      (⟨n, none⟩, .thread kind key.place) :: skeleton records₂) := by
    have mapped := skeleton_perm perm
    rw [skeleton_cons, skeleton_cons, entry, node?_eq_some.mp node] at mapped
    rw [target]
    rw [target] at mapped
    exact mapped
  have mem : (key.place, .node kind n) ∈ skeleton volume.records :=
    skel.mem_iff.mpr mem_cons_self
  have old : ∀ e ∈ skeleton records₂, e ∈ skeleton volume.records := fun e mem =>
    skel.mem_iff.mpr (mem_cons_of_mem _ (mem_cons_of_mem _ mem))
  have nothing : ∀ e ∈ skeleton volume.records, e.1.name.isSome → e.1.parent ≠ n := by
    intro e mem named same
    have := (countP_eq_zero.mp empty) e mem
    exact this (by simp [named, same])
  have tree₂ : Tree (skeleton records₂) := consistent.tree.delete skel notRoot nothing
  obtain ⟨named, k', folder⟩ := consistent.tree.parents key.place kind n mem notRoot
  have otherFolder : key.parentID ≠ n := nothing _ mem named
  -- the folder that the node was in
  have folder₂ : (k', .node .folder key.parentID) ∈ skeleton records₂ := by
    rcases mem_cons.mp (skel.mem_iff.mp folder) with removed | rest
    · injection removed with _ h₂
      injection h₂ with _ h₃
      exact absurd h₃ otherFolder
    · rcases mem_cons.mp rest with thread | rest
      · cases thread
      · exact rest
  obtain ⟨parentKey, valence, parentEncoding, parent, -⟩ := exists_folder_of_mem folder₂
  have positive₂ : ∀ k kind n, (k, .node kind n) ∈ skeleton records₂ → n ≠ 0 :=
    fun k kind n mem => consistent.positive k kind n (old _ mem)
  obtain ⟨volume₃, updated, perm₃, nextId', filCnt', dirCnt', valences⟩ :=
    @updateFolderCount_spec ⟨key.parentID, []⟩ parentKey key.parentID valence parentEncoding
      { volume with records := records₂ } tree₂ (locate_of_id tree₂ positive₂ parent rfl) parent kind
      (-1)
  have nextId : volume₃.vcbNxtCNID = volume.vcbNxtCNID := nextId'
  have filCnt : volume₃.vcbFilCnt = volume.vcbFilCnt := filCnt'
  have dirCnt : volume₃.vcbDirCnt = volume.vcbDirCnt := dirCnt'
  have perm₃ : (skeleton records₂).Perm (skeleton volume₃.records) := perm₃
  refine ⟨volume₃, updated, ?_⟩
  have counted : ∀ m, children (skeleton volume.records) m =
      children (skeleton volume₃.records) m + if m = key.parentID then 1 else 0 := by
    intro m
    rw [children_perm skel, children_cons_node named, children_cons_noName rfl, children_perm perm₃]
    rfl
  have nodesCounted : ∀ kind₁, nodes (skeleton volume.records) kind₁ =
      nodes (skeleton volume₃.records) kind₁ + if kind = kind₁ then 1 else 0 := by
    intro kind₁
    rw [nodes_perm skel, nodes_cons_node, nodes_cons_thread, nodes_perm perm₃]
  have inRecords : ∀ e ∈ records₂, e ∈ volume.records := fun e mem =>
    perm.mem_iff.mpr (mem_cons_of_mem _ (mem_cons_of_mem _ mem))
  obtain ⟨records₄, nextId₄⟩ := adjustVolumeCounts_records volume₃ kind (-1)
  constructor
  case tree =>
    rw [records₄]
    exact tree₂.perm perm₃
  case valences =>
    intro key₁ m v textEncoding₁ mem
    rw [records₄] at mem ⊢
    rcases valences key₁ m v textEncoding₁ mem with ⟨rfl, rfl⟩ | ⟨other, inside₂⟩
    · have before := consistent.valences parentKey _ valence parentEncoding (inRecords _ parent)
      have bound := consistent.tree.children_le consistent.below key.parentID
      rw [counted, if_pos rfl] at before bound
      rw [before]
      exact adjust_neg_one (by omega)
    · have before := consistent.valences key₁ m v textEncoding₁ (inRecords _ inside₂)
      rwa [counted, if_neg other] at before
  case files =>
    rw [records₄]
    have before := consistent.files
    have bound := consistent.tree.nodes_le consistent.below .file
    rw [nodesCounted] at before bound
    cases kind with
    | folder =>
      show volume₃.vcbFilCnt = _
      rwa [filCnt]
    | file =>
      show adjust 32 volume₃.vcbFilCnt (-1) = _
      rw [if_pos rfl] at before bound
      rw [filCnt, before]
      exact adjust_neg_one (by omega)
  case folders =>
    rw [records₄]
    have before := consistent.folders
    have bound := consistent.tree.nodes_le consistent.below .folder
    rw [nodesCounted] at before bound
    cases kind with
    | file =>
      show volume₃.vcbDirCnt + 1 = _
      rwa [dirCnt]
    | folder =>
      show adjust 32 volume₃.vcbDirCnt (-1) + 1 = _
      rw [if_pos rfl] at before bound
      -- the root folder is left, so the counter does not wrap around
      obtain ⟨root, mem⟩ := (tree₂.perm perm₃).root
      have atLeast : 0 < nodes (skeleton volume₃.records) .folder :=
        countP_pos_iff.mpr ⟨_, mem, by simp⟩
      obtain ⟨count, same⟩ : ∃ count, nodes (skeleton volume₃.records) .folder = count + 1 :=
        ⟨_, (Nat.sub_add_cancel atLeast).symm⟩
      rw [same] at before bound ⊢
      have counter : volume₃.vcbDirCnt = count + 1 := by omega
      rw [counter, adjust_neg_one (by omega)]
  case ids =>
    intro k kind₁ m mem
    rw [records₄] at mem
    rw [nextId₄, nextId]
    exact consistent.ids k kind₁ m (old _ (perm₃.mem_iff.mpr mem))
  case next =>
    rw [nextId₄, nextId]
    exact next

theorem Volume.Consistent.delete (parentID : ℕ)
    (name : List UInt8) : (volume.deleteCatalogNode parentID name).2.Consistent := by
  have tree := consistent.tree
  rw [Volume.deleteCatalogNode.eq_def]
  split
  · exact consistent
  split
  · exact consistent
  rename_i _ key data located
  obtain ⟨mem, kind, n, node⟩ := locateSubject_spec tree consistent.positive located
  have entry := mem_skeleton mem
  rw [node?_eq_some.mp node] at entry
  rw [node]
  dsimp only
  split_ifs with occupied top used
  · exact consistent
  · exact consistent
  · obtain ⟨records₁, deleted₁, perm₁⟩ := delete_spec tree.distinct mem rfl
    obtain ⟨threadParent, threadName, thread, target⟩ := tree.search_thread mem node
    obtain ⟨threadInside, -⟩ := (search_eq_some tree.distinct).mp thread
    have thread₁ : (⟨n, []⟩, .thread kind threadParent threadName) ∈ records₁ := by
      rcases mem_cons.mp (perm₁.mem_iff.mp threadInside) with same | rest
      · injection same with _ same
        rw [← same] at node
        cases node
      · exact rest
    have distinct₁ : DistinctKeys Prod.fst (skeleton records₁) := by
      have distinct := tree.distinct.perm (skeleton_perm perm₁)
      rw [skeleton_cons, distinctKeys_cons] at distinct
      exact distinct.2
    obtain ⟨records₂, deleted₂, perm₂⟩ := delete_spec distinct₁ thread₁ rfl
    -- nothing is in a file, nor in a folder with valence zero
    have empty : children (skeleton volume.records) n = 0 := by
      cases data with
      | folder folderID valence textEncoding =>
        obtain ⟨-, rfl⟩ := Prod.mk.inj (Option.some.inj node)
        have valences := consistent.valences key folderID valence textEncoding mem
        rw [← valences]
        simpa [CatalogRecord.occupied] using occupied
      | file fileID textEncoding =>
        obtain ⟨rfl, rfl⟩ := Prod.mk.inj (Option.some.inj node)
        refine tree.children_eq_zero (fun k folder => ?_) ?_
        · cases (tree.eq_of_id entry folder).2
        · have := consistent.ids _ .file fileID entry
          omega
      | thread => cases node
    obtain ⟨volume₃, updated, consistent₃⟩ := consistent.deleted node
      (perm₁.trans (perm₂.cons _)) target top empty
    rw [deleted₁]
    dsimp only
    rw [deleted₂, Option.getD_some, updated]
    exact consistent₃
  · exact absurd (consistent.positive _ kind n entry) used

end Darwin.Hfs.Catalog
