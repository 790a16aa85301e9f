import Darwin.Hfs.Catalog.Basic

/-!
# Consistent catalogs

The records of a catalog, without what they say about valences and encodings, are the entries of a
folder tree under the places of their keys.  A volume is consistent if they make up a tree, and the
valences and counters are right.

## Main definitions

* `skeleton` - the entries of the catalog
* `Volume.Consistent` - what every call preserves
-/

namespace Darwin.Hfs.Catalog

open Darwin.Lib Option

/-- What the comparison of keys sees of a key. -/
def CatalogKey.place (key : CatalogKey) : Place (List UInt16) :=
  ⟨key.parentID, if key.nodeName = [] then none else some (foldedUnits key.nodeName)⟩

/-- What a record is, apart from its valence and encoding. -/
def CatalogRecord.item : CatalogRecord → Item (List UInt16)
  | .folder folderID _ _ => .node .folder folderID
  | .file fileID _ => .node .file fileID
  | .thread kind parentID nodeName => .thread kind (CatalogKey.place ⟨parentID, nodeName⟩)

/-- An entry of the tree. -/
def entry (e : CatalogKey × CatalogRecord) : Place (List UInt16) × Item (List UInt16) :=
  (e.1.place, e.2.item)

/-- The entries of the catalog. -/
def skeleton (records : Records) : List (Place (List UInt16) × Item (List UInt16)) :=
  records.map entry

/-- What every call preserves. -/
structure Volume.Consistent (volume : Volume) : Prop where
  tree : Tree (skeleton volume.records)
  valences : ∀ key n valence textEncoding, (key, .folder n valence textEncoding) ∈ volume.records →
    valence = children (skeleton volume.records) n
  files : volume.vcbFilCnt = nodes (skeleton volume.records) .file
  folders : volume.vcbDirCnt + 1 = nodes (skeleton volume.records) .folder
  ids : ∀ k kind n, (k, .node kind n) ∈ skeleton volume.records →
    n = 2 ∨ (16 ≤ n ∧ n < volume.vcbNxtCNID)
  next : 16 ≤ volume.vcbNxtCNID ∧ volume.vcbNxtCNID < 2 ^ 32

variable {records records' : Records} {key key' : CatalogKey} {data data' : CatalogRecord}
  {kind kind' : Kind} {n valence textEncoding : ℕ} {volume : Volume}

/-! ## Keys and entries -/

theorem place_name_eq_none : key.place.name = none ↔ key.nodeName = [] := by
  rw [CatalogKey.place]
  by_cases empty : key.nodeName = []
  · simp [empty]
  · simp [empty]

theorem eq_of_place_noName (place : key.place = ⟨n, none⟩) : key = ⟨n, []⟩ := by
  obtain ⟨parentID, nodeName⟩ := key
  have noName : nodeName = [] := place_name_eq_none.mp (congrArg Place.name place)
  have parent : parentID = n := congrArg Place.parent place
  rw [noName, parent]

/-- Keys compare equal when they stand for the same place. -/
theorem compare_eq_zero_iff (key key' : CatalogKey) :
    compareExtendedCatalogKeys key key' = 0 ↔ key'.place = key.place := by
  obtain ⟨p, a⟩ := key
  obtain ⟨q, b⟩ := key'
  rw [compareExtendedCatalogKeys]
  rcases lt_trichotomy p q with less | rfl | greater
  · rw [if_neg less.not_gt, if_pos less]
    exact iff_of_false (by decide) fun same => less.ne' (congrArg Place.parent same)
  · rw [if_neg (lt_irrefl p), if_neg (lt_irrefl p)]
    cases a with
    | nil =>
      cases b with
      | nil => exact iff_of_true rfl rfl
      | cons d b =>
        refine iff_of_false ?_ fun same => nomatch congrArg Place.name same
        simp only [List.length_nil, List.length_cons, true_or, if_true]
        omega
    | cons c a =>
      cases b with
      | nil =>
        refine iff_of_false ?_ fun same => nomatch congrArg Place.name same
        simp only [List.length_nil, List.length_cons, or_true, if_true]
        omega
      | cons d b =>
        rw [if_neg (by simp), fastUnicodeCompare_eq_zero_iff, eq_comm]
        simp [CatalogKey.place]
  · rw [if_pos greater]
    exact iff_of_false (by decide) fun same => greater.ne (congrArg Place.parent same)

theorem node?_eq_some : data.node? = some (kind, n) ↔ data.item = .node kind n := by
  cases data <;> simp [CatalogRecord.node?, CatalogRecord.item]

theorem mem_skeleton (mem : (key, data) ∈ records) :
    (key.place, data.item) ∈ skeleton records :=
  List.mem_map.mpr ⟨(key, data), mem, rfl⟩

theorem exists_of_mem_skeleton {k : Place (List UInt16)} {item : Item (List UInt16)}
    (mem : (k, item) ∈ skeleton records) :
    ∃ key data, (key, data) ∈ records ∧ key.place = k ∧ data.item = item := by
  obtain ⟨⟨key, data⟩, mem, same⟩ := List.mem_map.mp mem
  injection same with h₁ h₂
  exact ⟨key, data, mem, h₁, h₂⟩

/-! ## The B-tree -/

theorem distinct_of_skeleton (distinct : DistinctKeys Prod.fst (skeleton records)) :
    DistinctKeys (fun e : CatalogKey × CatalogRecord => e.1.place) records := by
  rw [DistinctKeys, skeleton, List.map_map] at distinct
  exact distinct

theorem search_eq (records : Records) (key : CatalogKey) :
    searchBTreeRecord records key = records.find? fun e => e.1.place = key.place := by
  rw [searchBTreeRecord]
  simp only [compare_eq_zero_iff]

theorem search_eq_some (distinct : DistinctKeys Prod.fst (skeleton records)) :
    searchBTreeRecord records key = some (key', data) ↔
      (key', data) ∈ records ∧ key'.place = key.place := by
  rw [search_eq]
  exact find_eq_some_iff (distinct_of_skeleton distinct) key.place

theorem search_eq_none : searchBTreeRecord records key = none ↔
    ∀ e ∈ skeleton records, e.1 ≠ key.place := by
  rw [search_eq]
  refine (@find_eq_none_iff _ _ (fun e : CatalogKey × CatalogRecord => e.1.place) _ records
    key.place).trans ⟨fun absent e mem => ?_, fun absent e mem => ?_⟩
  · obtain ⟨e', inside', rfl⟩ := List.mem_map.mp mem
    exact absent e' inside'
  · exact absent (entry e) (List.mem_map.mpr ⟨e, mem, rfl⟩)

/-- What an insertion does. -/
theorem insert_spec (inserted : insertBTreeRecord records key data = some records') :
    records'.Perm ((key, data) :: records) ∧ ∀ e ∈ skeleton records, e.1 ≠ key.place := by
  rw [insertBTreeRecord] at inserted
  cases found : searchBTreeRecord records key with
  | some e =>
    rw [found] at inserted
    cases inserted
  | none =>
    rw [found] at inserted
    cases inserted
    exact ⟨perm_insertBefore _ _ _, search_eq_none.mp found⟩

theorem insert_isSome (absent : ∀ e ∈ skeleton records, e.1 ≠ key.place) :
    ∃ records', insertBTreeRecord records key data = some records' := by
  rw [insertBTreeRecord, search_eq_none.mpr absent]
  exact ⟨_, rfl⟩

/-- A record is deleted by a key of its place. -/
theorem delete_spec (distinct : DistinctKeys Prod.fst (skeleton records))
    (mem : (key', data) ∈ records) (same : key'.place = key.place) :
    ∃ records', deleteBTreeRecord records key = some records' ∧
      records.Perm ((key', data) :: records') := by
  have found := (search_eq_some distinct).mpr ⟨mem, same⟩
  rw [deleteBTreeRecord, found]
  refine ⟨_, rfl, ?_⟩
  simp only [ne_eq, compare_eq_zero_iff, ← same]
  exact perm_filter_key (distinct_of_skeleton distinct) mem

/-- A record is replaced by one under the same key. -/
theorem replace_spec (distinct : DistinctKeys Prod.fst (skeleton records))
    (mem : (key, data) ∈ records) (data' : CatalogRecord) :
    ∃ records' rest, replaceBTreeRecord records key data' = some records' ∧
      records.Perm ((key, data) :: rest) ∧ records'.Perm ((key, data') :: rest) := by
  have found := (search_eq_some distinct).mpr ⟨mem, rfl⟩
  rw [replaceBTreeRecord, found]
  simp only [compare_eq_zero_iff]
  exact ⟨_, _, rfl, perm_filter_key (distinct_of_skeleton distinct) mem,
    perm_replace_key (distinct_of_skeleton distinct) mem (key, data')⟩

theorem skeleton_perm (perm : records.Perm records') : (skeleton records).Perm (skeleton records') :=
  perm.map entry

theorem skeleton_cons (e : CatalogKey × CatalogRecord) (records : Records) :
    skeleton (e :: records) = entry e :: skeleton records := rfl

/-! ## Finding a node -/

theorem item_eq_thread {target : Place (List UInt16)} (item : data.item = .thread kind target) :
    ∃ parentID nodeName, data = .thread kind parentID nodeName ∧
      CatalogKey.place ⟨parentID, nodeName⟩ = target := by
  cases data with
  | folder => cases item
  | file => cases item
  | thread kind' parentID nodeName =>
    injection item with h₁ h₂
    subst h₁
    exact ⟨parentID, nodeName, rfl, h₂⟩

/-- A node that has the key is found. -/
theorem locate_of_key (distinct : DistinctKeys Prod.fst (skeleton records))
    (mem : (key', data) ∈ records) (node : data.node? = some (kind, n))
    (same : key'.place = key.place) : locateCatalogNode records key = some (key', data) := by
  rw [locateCatalogNode, (search_eq_some distinct).mpr ⟨mem, same⟩]
  cases data with
  | folder => rfl
  | file => rfl
  | thread => cases node

variable (tree : Tree (skeleton records))

include tree

/-- Nodes are in folders with ids other than zero. -/
theorem Tree.parentID_ne_zero (positive : ∀ k kind n, (k, .node kind n) ∈ skeleton records → n ≠ 0)
    (mem : (key, data) ∈ records) (node : data.node? = some (kind, n)) : key.parentID ≠ 0 := by
  have entry := mem_skeleton mem
  rw [node?_eq_some.mp node] at entry
  by_cases top : n = 2
  · subst top
    have parent : key.parentID = 1 := tree.rootPlace key.place kind entry
    omega
  · obtain ⟨-, k', folder⟩ := tree.parents key.place kind n entry top
    exact positive k' .folder key.parentID folder

/-- The record that a thread says. -/
theorem Tree.search_thread (mem : (key, data) ∈ records) (node : data.node? = some (kind, n)) :
    ∃ parentID nodeName, searchBTreeRecord records ⟨n, []⟩ =
        some (⟨n, []⟩, .thread kind parentID nodeName) ∧
      key.place = CatalogKey.place ⟨parentID, nodeName⟩ := by
  have entry := mem_skeleton mem
  rw [node?_eq_some.mp node] at entry
  obtain ⟨threadKey, threadData, inside', place, item⟩ :=
    exists_of_mem_skeleton (tree.threaded key.place kind n entry)
  obtain ⟨parentID, nodeName, rfl, target⟩ := item_eq_thread item
  obtain rfl := eq_of_place_noName place
  exact ⟨parentID, nodeName, (search_eq_some tree.distinct).mpr ⟨inside', rfl⟩, target.symm⟩

variable (positive : ∀ k kind n, (k, .node kind n) ∈ skeleton records → n ≠ 0)

include positive

/-- A node is found by its id. -/
theorem locate_of_id
    (mem : (key, data) ∈ records) (node : data.node? = some (kind, n)) :
    locateCatalogNode records ⟨n, []⟩ = some (key, data) := by
  obtain ⟨parentID, nodeName, thread, target⟩ := tree.search_thread mem node
  have parent : key.parentID = parentID := congrArg Place.parent target
  have ne_zero : parentID ≠ 0 := parent ▸ tree.parentID_ne_zero positive mem node
  rw [locateCatalogNode, thread]
  dsimp only
  rw [if_pos ne_zero]
  exact (search_eq_some tree.distinct).mpr ⟨mem, target⟩

/-- What is found is a node, either one that has the key or one whose thread has it. -/
theorem locate_spec
    (located : locateCatalogNode records key = some (key', data)) :
    (key', data) ∈ records ∧ ∃ kind n, data.node? = some (kind, n) ∧
      (key'.place = key.place ∨ key.place = ⟨n, none⟩) := by
  rw [locateCatalogNode.eq_def] at located
  cases found : searchBTreeRecord records key with
  | none =>
    rw [found] at located
    cases located
  | some e =>
    obtain ⟨foundKey, foundData⟩ := e
    obtain ⟨mem, same⟩ := (search_eq_some tree.distinct).mp found
    rw [found] at located
    cases foundData with
    | folder folderID valence textEncoding =>
      cases located
      exact ⟨mem, .folder, folderID, rfl, .inl same⟩
    | file fileID textEncoding =>
      cases located
      exact ⟨mem, .file, fileID, rfl, .inl same⟩
    | thread kind parentID nodeName =>
      obtain ⟨noName, node⟩ := tree.threads _ _ _ (mem_skeleton mem)
      obtain ⟨nodeKey, nodeData, inside', place, item⟩ := exists_of_mem_skeleton node
      have isNode := node?_eq_some.mpr item
      have parent : nodeKey.parentID = parentID := congrArg Place.parent place
      have ne_zero : parentID ≠ 0 := parent ▸ tree.parentID_ne_zero positive inside' isNode
      dsimp only at located
      rw [if_pos ne_zero, (search_eq_some tree.distinct).mpr ⟨inside', place⟩] at located
      cases located
      refine ⟨inside', kind, foundKey.place.parent, isNode, .inr ?_⟩
      rw [← same]
      exact Place.ext rfl noName

omit positive

omit tree

theorem locateMangled_eq_some {folderID : ℕ} {name : List UInt8}
    (located : locateCatalogNodeByMangledName records folderID name = some (key', data)) :
    ∃ fileID, locateCatalogNode records ⟨fileID, []⟩ = some (key', data) ∧
      key'.parentID = folderID := by
  rw [locateCatalogNodeByMangledName] at located
  split_ifs at located
  dsimp only at located
  split_ifs at located
  cases found : locateCatalogNode records ⟨(getEmbeddedFileID name).1, []⟩ with
  | none =>
    rw [found] at located
    cases located
  | some e =>
    obtain ⟨foundKey, foundData⟩ := e
    rw [found] at located
    dsimp only at located
    split_ifs at located with other
    cases located
    exact ⟨_, found, (not_not.mp other).symm⟩

/-- The subject of a call is a node. -/
theorem locateSubject_spec (tree : Tree (skeleton records))
    (positive : ∀ k kind n, (k, .node kind n) ∈ skeleton records → n ≠ 0) {name : List UInt8}
    (located : locateSubject records key name = some (key', data)) :
    (key', data) ∈ records ∧ ∃ kind n, data.node? = some (kind, n) := by
  rw [locateSubject] at located
  cases found : locateCatalogNode records key with
  | some e =>
    rw [found] at located
    cases located
    obtain ⟨mem, kind, n, node, -⟩ := locate_spec tree positive found
    exact ⟨mem, kind, n, node⟩
  | none =>
    rw [found] at located
    obtain ⟨fileID, found', -⟩ := locateMangled_eq_some located
    obtain ⟨mem, kind, n, node, -⟩ := locate_spec tree positive found'
    exact ⟨mem, kind, n, node⟩

/-! ## Counters -/

theorem adjust_one {count : ℕ} (bound : count + 1 < 2 ^ 32) : adjust 32 count 1 = count + 1 := by
  rw [adjust]
  omega

theorem adjust_neg_one {count : ℕ} (bound : count + 1 < 2 ^ 32) :
    adjust 32 (count + 1) (-1) = count := by
  rw [adjust]
  omega

theorem adjustRootCounts_records (volume : Volume) (kind : Kind) (delta : ℤ) (data : CatalogRecord) :
    (volume.adjustRootCounts kind delta data).records = volume.records ∧
      (volume.adjustRootCounts kind delta data).vcbNxtCNID = volume.vcbNxtCNID ∧
      (volume.adjustRootCounts kind delta data).vcbFilCnt = volume.vcbFilCnt ∧
      (volume.adjustRootCounts kind delta data).vcbDirCnt = volume.vcbDirCnt := by
  rw [Volume.adjustRootCounts.eq_def]
  split <;> exact ⟨rfl, rfl, rfl, rfl⟩

/-- The valence of one folder is changed. -/
theorem updateFolderCount_spec (tree : Tree (skeleton volume.records))
    (located : locateCatalogNode volume.records key = some (key', .folder n valence textEncoding))
    (mem : (key', .folder n valence textEncoding) ∈ volume.records) (kind : Kind) (delta : ℤ) :
    ∃ volume', volume.updateFolderCount key kind delta = (.noErr, volume') ∧
      (skeleton volume.records).Perm (skeleton volume'.records) ∧
      volume'.vcbNxtCNID = volume.vcbNxtCNID ∧ volume'.vcbFilCnt = volume.vcbFilCnt ∧
      volume'.vcbDirCnt = volume.vcbDirCnt ∧
      ∀ key₁ m v textEncoding₁, (key₁, .folder m v textEncoding₁) ∈ volume'.records →
        (m = n ∧ v = adjust 32 valence delta) ∨
          (m ≠ n ∧ (key₁, .folder m v textEncoding₁) ∈ volume.records) := by
  obtain ⟨records', rest, replaced, before, after⟩ := replace_spec tree.distinct mem
    (CatalogRecord.adjustValence delta (.folder n valence textEncoding))
  have counts := adjustRootCounts_records { volume with records := records' } kind delta
    (.folder n valence textEncoding)
  refine ⟨_, ?_, ?_, counts.2.1, counts.2.2.1, counts.2.2.2, ?_⟩
  · rw [Volume.updateFolderCount, located]
    dsimp only
    rw [replaced]
  · rw [counts.1]
    exact (skeleton_perm before).trans (skeleton_perm after).symm
  intro key₁ m v textEncoding₁ inside₁
  rw [counts.1] at inside₁
  rcases List.mem_cons.mp (after.mem_iff.mp inside₁) with changed | other
  · injection changed with _ h₂
    injection h₂ with h₂ h₃
    exact .inl ⟨h₂, h₃⟩
  have old := before.mem_iff.mpr (List.mem_cons_of_mem _ other)
  refine .inr ⟨?_, old⟩
  rintro rfl
  -- the folder is there only once
  obtain ⟨place, -⟩ := tree.eq_of_id (mem_skeleton old) (mem_skeleton mem)
  have distinct := (distinct_of_skeleton tree.distinct).perm before
  rw [distinctKeys_cons] at distinct
  exact distinct.1 _ other place

end Darwin.Hfs.Catalog
